import HorizonRelay.Engine.Ledger

/-!
# The protocol of progress events

What the events of a run tell its observers, as a state machine: where the main flow is,
how far each task of the plan is, and which calls were reported as finished.  `Expects`
says which event can come next.  The machine is the abstract side of a refinement: the
engine hands out only events it expects, and the decision graph is right about every
sequence of events it expects.  Only an output of a call can come at another time: the one
that handed it out was cancelled before, but the callback did not let the cancellation
through.  Such an output is `Late`.

## Main definitions

* `Key` — a model call, as its record identifies it.
* `MainPhase`, `TaskPhase`, `Progress` — the states of the machine.
* `Progress.after`, `Progress.Expects`, `Progress.Accepts` — its transitions.
* `Progress.Late`, `Progress.Admits` — an output that is told all the same.
* `EventData.teller` — who reports an event.

## Main results

* `Progress.SameMain.after`, `Progress.SameTask.after` — an event moves its teller only.
* `Progress.accepts_append` — accepting a sequence step by step.
-/

namespace HorizonRelay

open Py

/-! ## Calls -/

/-- The place of a call, as its record tells it. -/
def CallRecord.slot (r : CallRecord) : Slot :=
  match r.operation with
  | .attempt => .extract
  | .solve | .critique => .judge (r.forTier.getD r.tier) (r.attempt.getD 1)
  | .answer => .answer
  | .plan => .plan (r.attempt.getD 1)
  | .work => .work (r.taskId.getD []) (r.attempt.getD 1)
  | .synthesize => .synthesize

/-- A call: its place in the run and the tier that serves it. -/
structure Key : Type where
  slot : Slot
  tier : Tier
  deriving DecidableEq

def CallRecord.key (r : CallRecord) : Key := ⟨r.slot, r.tier⟩

def Call.key (c : Call) : Key := ⟨c.slot, c.record.tier⟩

/-- The record of a call identifies it. -/
theorem Call.Recorded.key {c : Call} (h : c.Recorded) : c.record.key = c.key := by
  obtain ⟨i, p, r, b, e⟩ := c
  obtain ⟨hop, hid, hn, ht⟩ := h
  simp only at hop hid hn ht
  cases p <;>
    simp [CallRecord.key, Call.key, Call.slot, CallRecord.slot, hop, hid, hn, ht,
      Payload.slot, Payload.operation, Payload.taskId, Payload.attempt?, Payload.forTier]

/-- Whether a place is one of the main flow's. -/
def Slot.isMain : Slot → Bool
  | .work _ _ => false
  | _ => true

/-! ## Phases -/

/-- Where the main flow is. -/
inductive MainPhase : Type
  | begun
  /-- The run has started, and no model was asked. -/
  | opened
  | extracting
  | extracted
  /-- Between two local models. -/
  | routing
  /-- A local model has given `samples` answers. -/
  | judging (tier : Tier) (samples : ℕ)
  | sampled (tier : Tier) (samples : ℕ)
  | critiquing (tier : Tier) (samples : ℕ)
  | critiqued (tier : Tier) (samples : ℕ)
  | trusted (tier : Tier)
  | direct
  | answering
  /-- `refused` plans were refused. -/
  | planning (refused : ℕ)
  | drafted (refused : ℕ)
  | planned
  | synthesizing
  | answered
  /-- A local answer was accepted. -/
  | accepted
  | completed
  | stopped
  deriving DecidableEq

/-- How far a task is. -/
inductive TaskPhase : Type
  /-- Attempt `n` is next, on the tier unless the task moves. -/
  | next (tier : Tier) (n : ℕ)
  | calling (tier : Tier) (n : ℕ)
  | called (tier : Tier) (n : ℕ)
  | done (tier : Tier)
  deriving DecidableEq

/-- What the events so far have told. -/
structure Progress : Type where
  main : MainPhase := .begun
  /-- The local tiers skipped or asked so far. -/
  seen : List Tier := []
  plan : Option (List Task) := none
  tasks : Str → Option TaskPhase := fun _ => none
  /-- The calls reported as finished. -/
  finished : List Key := []
  /-- The calls whose output was reported. -/
  outputs : List Key := []

/-! ## Transitions -/

/-- The main flow after a call of its own. -/
def MainPhase.finish : MainPhase → Slot → MainPhase
  | .extracting, .extract => .extracted
  | .judging t n, .judge _ _ => .sampled t n
  | .critiquing t n, .judge _ _ => .critiqued t n
  | .planning n, .plan _ => .drafted n
  | .answering, .answer => .answered
  | .synthesizing, .synthesize => .answered
  | p, _ => p

/-- The main flow after the answers of a local model. -/
def MainPhase.critique : MainPhase → MainPhase
  | .judging t n => .critiquing t n
  | p => p

/-- The main flow after an event. -/
def MainPhase.after (p : MainPhase) : EventData → MainPhase
  | .runStarted .. => .opened
  | .localAttempt .. => .extracting
  | .extractFailed _ => .routing
  | .localSkipped .. => .routing
  | .localSolve t _ => .judging t 0
  | .localSample t n _ => .judging t n
  | .localCritique .. => p.critique
  | .localVerdict t v _ => if v.escalate then .routing else .trusted t
  | .localAccepted .. => .accepted
  | .escalated _ mode .. => if mode = .plan then .planning 0 else .direct
  | .answering _ => .answering
  | .planInvalid n _ => .planning n
  | .planCreated .. => .planned
  | .synthesizing _ => .synthesizing
  | .callFinished r => p.finish r.slot
  | .runCompleted _ => .completed
  | .runFailed _ | .runCancelled _ => .stopped
  | _ => p

/-- The phases of the tasks of a plan. -/
def startPhases (tasks : List Task) (id : Str) : Option TaskPhase :=
  (tasks.find? (·.id = id)).map fun t => .next t.preferredTier 1

/-- The tasks after an event. -/
def tasksAfter (ts : Str → Option TaskPhase) : EventData → Str → Option TaskPhase
  | .planCreated tasks _ => startPhases tasks
  | .taskEscalated id tier _ n _ => Function.update ts id (some (.next tier n))
  | .taskStarted id tier n _ => Function.update ts id (some (.calling tier n))
  | .callFinished r =>
      match r.slot with
      | .work id n => Function.update ts id (some (.called r.tier n))
      | _ => ts
  | .taskInvalid id tier n .. => Function.update ts id (some (.next tier (n + 1)))
  | .taskCompleted id tier .. => Function.update ts id (some (.done tier))
  | _ => ts

/-- What is told after an event. -/
def Progress.after (p : Progress) (d : EventData) : Progress where
  main := p.main.after d
  seen := match d with
    | .localSkipped t .. | .localSolve t _ => p.seen ++ [t]
    | _ => p.seen
  plan := match d with
    | .planCreated tasks _ => some tasks
    | _ => p.plan
  tasks := tasksAfter p.tasks d
  finished := match d with
    | .callFinished r => p.finished ++ [r.key]
    | _ => p.finished
  outputs := match d with
    | .callOutput r .. => p.outputs.insert r.key
    | _ => p.outputs

/-! ## Expectations -/

/-- What a plan told to observers satisfies. -/
structure PlanFit (tasks : List Task) : Prop where
  ids : (tasks.map Task.id).Nodup
  names : ∀ t ∈ tasks, Plan.IsId t.id
  closed : ∀ t ∈ tasks, ∀ d ∈ t.dependsOn, d ∈ tasks.map Task.id
  acyclic : Layers.Acyclic (Plan.Needs tasks)

namespace Progress

/-- A call the phases leave room for. -/
def Calling (p : Progress) (key : Key) : Prop :=
  match key.slot with
  | .extract => p.main = .extracting
  | .judge t n => ∃ k, n = k + 1 ∧ (p.main = .judging t k ∨ p.main = .critiquing t k)
  | .answer => p.main = .answering
  | .plan n => ∃ k, n = k + 1 ∧ p.main = .planning k
  | .work id n => p.tasks id = some (.calling key.tier n)
  | .synthesize => p.main = .synthesizing

/-- Every task of the plan, if there is one, is done. -/
def AllDone (p : Progress) : Prop := ∀ id ph, p.tasks id = some ph → ∃ t, ph = .done t

/-- The main flow is between two local models, or before the first one. -/
def Between (p : Progress) : Prop := p.main = .opened ∨ p.main = .routing

/-- Whether the run has told its end. -/
def Ended (p : Progress) : Prop := p.main = .completed ∨ p.main = .stopped

/-- The events that leave a run open. -/
def Allows (p : Progress) : EventData → Prop
  | .runStarted .. => p.main = .begun
  | .providerNotice => p.main = .opened
  | .localAttempt .. => p.main = .opened
  | .extractFailed _ => p.main = .extracted
  | .localSkipped t .. | .localSolve t _ => p.Between ∧ t ∉ p.seen
  | .localSample t n _ => ∃ k, n = k + 1 ∧ p.main = .sampled t k
  | .localCritique t .. => ∃ k, p.main = .judging t (k + 1)
  | .localVerdict t v _ =>
      if v.critique.skipped then ∃ n, p.main = .judging t n else ∃ n, p.main = .critiqued t n
  | .localAccepted t _ => (p.main = .extracted ∧ t = .small) ∨ p.main = .trusted t
  | .escalated .. => p.Between
  | .answering _ => p.main = .direct
  | .planInvalid n _ => ∃ k, n = k + 1 ∧ p.main = .drafted k
  | .planCreated tasks _ => (∃ k, p.main = .drafted k) ∧ PlanFit tasks
  | .taskEscalated id tier fromTier n _ => p.tasks id = some (.next fromTier n) ∧ tier ≠ fromTier
  | .taskStarted id tier n _ => p.tasks id = some (.next tier n)
  | .taskInvalid id tier n .. => p.tasks id = some (.called tier n)
  | .taskCompleted id tier n .. => p.tasks id = some (.called tier n)
  | .synthesizing _ => p.main = .planned ∧ p.AllDone
  | .callFinished r | .callOutput r .. => p.Calling r.key ∧ r.key ∉ p.finished
  | .runCompleted _ => (p.main = .answered ∨ p.main = .accepted) ∧ p.AllDone
  | .runFailed _ | .runCancelled _ => True

/-- The events expected next. A run that has told its end tells nothing more, except that
one that was interrupted after it told its completion tells that, too. -/
def Expects (p : Progress) (d : EventData) : Prop :=
  p.main ≠ .stopped ∧ (p.main = .completed → ∃ m, d = .runFailed m ∨ d = .runCancelled m) ∧
    p.Allows d

/-- The output of a call whose output was told before. -/
def Late (p : Progress) (d : EventData) : Prop :=
  ∃ r o n, d = .callOutput r o n ∧ r.key ∈ p.outputs

/-- The events that can come next: those expected, and late outputs where there are some. -/
def Admits (late : Prop) (p : Progress) (d : EventData) : Prop := p.Expects d ∨ late ∧ p.Late d

/-- What a sequence of events has told. -/
def of (ds : List EventData) : Progress := ds.foldl after {}

/-- A sequence in which every event can come when it does. -/
inductive Accepts (late : Prop) : List EventData → Prop
  | nil : Accepts late []
  | concat {ds : List EventData} {d : EventData} :
      Accepts late ds → (of ds).Admits late d → Accepts late (ds ++ [d])

@[simp] theorem of_concat (ds : List EventData) (d : EventData) :
    of (ds ++ [d]) = (of ds).after d := by
  rw [of, List.foldl_append]
  rfl

theorem accepts_concat {late : Prop} {ds : List EventData} {d : EventData} :
    Accepts late (ds ++ [d]) ↔ Accepts late ds ∧ (of ds).Admits late d := by
  refine ⟨fun h => ?_, fun h => .concat h.1 h.2⟩
  generalize hds : ds ++ [d] = es at h
  cases h with
  | nil => simp at hds
  | concat h he =>
      obtain ⟨rfl, hd⟩ := List.append_inj' hds rfl
      cases hd
      exact ⟨h, he⟩

end Progress

/-! ## The end -/

/-- The metrics of an event that ends a run. -/
def EventData.metrics? : EventData → Option Metrics
  | .runCompleted m | .runFailed m | .runCancelled m => some m
  | _ => none

/-! ## Tellers -/

/-- Who reports an event. -/
inductive Teller : Type
  | main
  | task (id : Str)
  | output (key : Key)

/-- The teller of an event. -/
def EventData.teller : EventData → Teller
  | .taskEscalated id .. | .taskStarted id .. | .taskInvalid id .. | .taskCompleted id .. =>
      .task id
  | .callFinished r =>
      match r.slot with
      | .work id _ => .task id
      | _ => .main
  | .callOutput r .. => .output r.key
  | _ => .main

namespace Progress

/-- The main flow is where it was. -/
structure SameMain (p p' : Progress) : Prop where
  main : p'.main = p.main
  seen : p'.seen = p.seen
  plan : p'.plan = p.plan
  finished : ∀ key : Key, key.slot.isMain = true → (key ∈ p'.finished ↔ key ∈ p.finished)
  done : ∀ id t, p.tasks id = some (.done t) → p'.tasks id = some (.done t)
  told : ∀ id, (p'.tasks id).isSome ↔ (p.tasks id).isSome

/-- A task is where it was. -/
structure SameTask (id : Str) (p p' : Progress) : Prop where
  task : p'.tasks id = p.tasks id
  finished : ∀ (t : Tier) (n : ℕ), ⟨.work id n, t⟩ ∈ p'.finished ↔ ⟨.work id n, t⟩ ∈ p.finished

theorem SameMain.refl (p : Progress) : SameMain p p :=
  ⟨rfl, rfl, rfl, fun _ _ => Iff.rfl, fun _ _ h => h, fun _ => Iff.rfl⟩

theorem SameMain.trans {p q r : Progress} (h : SameMain p q) (h' : SameMain q r) :
    SameMain p r where
  main := h'.main.trans h.main
  seen := h'.seen.trans h.seen
  plan := h'.plan.trans h.plan
  finished key hk := (h'.finished key hk).trans (h.finished key hk)
  done id t ht := h'.done id t (h.done id t ht)
  told id := (h'.told id).trans (h.told id)

theorem SameTask.refl (id : Str) (p : Progress) : SameTask id p p :=
  ⟨rfl, fun _ _ => Iff.rfl⟩

theorem SameTask.trans {id : Str} {p q r : Progress} (h : SameTask id p q)
    (h' : SameTask id q r) : SameTask id p r :=
  ⟨h'.task.trans h.task, fun t n => (h'.finished t n).trans (h.finished t n)⟩

/-! ## Frames -/

variable {late : Prop} {p : Progress} {d : EventData} {ds : List EventData} {id : Str}

theorem Expects.allows (h : p.Expects d) : p.Allows d := h.2.2

/-- A late output tells nothing new. -/
theorem Late.after (h : p.Late d) : p.after d = p := by
  obtain ⟨r, o, n, rfl, hr⟩ := h
  change { p with outputs := p.outputs.insert r.key } = p
  rw [List.insert_of_mem hr]

theorem Late.teller (h : p.Late d) : ∃ key ∈ p.outputs, d.teller = .output key := by
  obtain ⟨r, o, n, rfl, hr⟩ := h
  exact ⟨r.key, hr, rfl⟩

theorem Late.metrics (h : p.Late d) : d.metrics? = none := by
  obtain ⟨r, o, n, rfl, -⟩ := h
  rfl

theorem Admits.expects (h : p.Admits late d) (hl : ¬ late) : p.Expects d :=
  h.resolve_right fun h => hl h.1

/-- An event that is no output of a call comes when it is expected. -/
theorem Admits.of_teller (h : p.Admits late d) (hd : ∀ key, d.teller ≠ .output key) :
    p.Expects d := by
  refine h.resolve_right fun ⟨_, hl⟩ => ?_
  obtain ⟨key, -, ht⟩ := hl.teller
  exact hd key ht

/-- Only the main flow's own events move it. -/
theorem main_after (hd : d.teller ≠ .main) : (p.after d).main = p.main := by
  cases d with
  | callFinished r =>
      change p.main.finish r.slot = p.main
      simp only [EventData.teller] at hd
      cases hs : r.slot with
      | work id n => cases p.main <;> rfl
      | _ => simp [hs] at hd
  | callOutput r o n => rfl
  | taskEscalated => rfl
  | taskStarted => rfl
  | taskInvalid => rfl
  | taskCompleted => rfl
  | _ => exact absurd rfl hd

theorem seen_after (hd : d.teller ≠ .main) : (p.after d).seen = p.seen := by
  cases d with
  | localSkipped => exact absurd rfl hd
  | localSolve => exact absurd rfl hd
  | _ => rfl

theorem plan_after (hd : ∀ tasks s, d ≠ .planCreated tasks s) : (p.after d).plan = p.plan := by
  cases d with
  | planCreated tasks s => exact absurd rfl (hd tasks s)
  | _ => rfl

theorem mem_finished_after {key : Key} : key ∈ (p.after d).finished ↔
    key ∈ p.finished ∨ ∃ r, d = .callFinished r ∧ r.key = key := by
  cases d with
  | callFinished r =>
      change key ∈ p.finished ++ [r.key] ↔ _
      simp [eq_comm]
  | _ =>
      change key ∈ p.finished ↔ _
      simp

theorem mem_outputs_after {key : Key} : key ∈ (p.after d).outputs ↔
    key ∈ p.outputs ∨ ∃ r o n, d = .callOutput r o n ∧ r.key = key := by
  cases d with
  | callOutput r o n =>
      change key ∈ p.outputs.insert r.key ↔ _
      simp [eq_comm, or_comm]
  | _ =>
      change key ∈ p.outputs ↔ _
      simp

/-- An event about no task leaves the tasks alone. -/
theorem tasks_after_of_ne (hd : d.teller ≠ .task id) (hplan : ∀ tasks s, d ≠ .planCreated tasks s) :
    (p.after d).tasks id = p.tasks id := by
  change tasksAfter p.tasks d id = p.tasks id
  have hne : ∀ k, d.teller = .task k → id ≠ k := fun k hk h => hd (h ▸ hk)
  cases d with
  | planCreated tasks s => exact absurd rfl (hplan tasks s)
  | taskEscalated k => exact Function.update_of_ne (hne k rfl) _ _
  | taskStarted k => exact Function.update_of_ne (hne k rfl) _ _
  | taskInvalid k => exact Function.update_of_ne (hne k rfl) _ _
  | taskCompleted k => exact Function.update_of_ne (hne k rfl) _ _
  | callFinished r =>
      simp only [EventData.teller] at hne
      simp only [tasksAfter]
      cases hs : r.slot with
      | work k n =>
          rw [hs] at hne
          exact Function.update_of_ne (hne k rfl) _ _
      | _ => rfl
  | _ => rfl

/-- An expected event about a task finds the task of a plan that is not done. -/
theorem Expects.task (h : p.Expects d) (hd : d.teller = .task id) :
    ∃ ph, p.tasks id = some ph ∧ ∀ t, ph ≠ .done t := by
  have ha := h.allows
  cases d with
  | taskEscalated => cases hd; exact ⟨_, ha.1, by simp⟩
  | taskStarted => cases hd; exact ⟨_, ha, by simp⟩
  | taskInvalid => cases hd; exact ⟨_, ha, by simp⟩
  | taskCompleted => cases hd; exact ⟨_, ha, by simp⟩
  | callFinished r =>
      simp only [EventData.teller] at hd
      have ha : p.Calling r.key := ha.1
      cases hs : r.slot with
      | work k n =>
          rw [hs] at hd
          cases hd
          simp only [Calling, CallRecord.key, hs] at ha
          exact ⟨_, ha, by simp⟩
      | _ => simp [hs] at hd
  | _ => cases hd

/-- **An event of somebody else leaves the main flow where it was.** -/
theorem SameMain.after (h : p.Admits late d) (hd : d.teller ≠ .main) :
    SameMain p (p.after d) := by
  rcases h with h | ⟨-, h⟩
  swap
  · rw [h.after]
    exact .refl p
  have hplan : ∀ tasks s, d ≠ .planCreated tasks s := by
    rintro tasks s rfl
    exact hd rfl
  have htasks : ∀ id, (p.after d).tasks id = p.tasks id ∨
      d.teller = .task id ∧ ((p.after d).tasks id).isSome := by
    intro id
    by_cases ht : d.teller = .task id
    · refine .inr ⟨ht, ?_⟩
      change (tasksAfter p.tasks d id).isSome
      cases d with
      | taskEscalated => cases ht; simp [tasksAfter]
      | taskStarted => cases ht; simp [tasksAfter]
      | taskInvalid => cases ht; simp [tasksAfter]
      | taskCompleted => cases ht; simp [tasksAfter]
      | callFinished r =>
          simp only [EventData.teller] at ht
          cases hs : r.slot with
          | work k n =>
              rw [hs] at ht
              cases ht
              simp [tasksAfter, hs]
          | _ => simp [hs] at ht
      | _ => cases ht
    · exact .inl (tasks_after_of_ne ht hplan)
  refine ⟨main_after hd, seen_after hd, plan_after hplan, fun key hkey => ?_, fun id t ht => ?_,
    fun id => ?_⟩
  · rw [mem_finished_after]
    refine or_iff_left ?_
    rintro ⟨r, rfl, rfl⟩
    refine hd ?_
    simp only [CallRecord.key] at hkey
    simp only [EventData.teller]
    cases hs : r.slot with
    | work k n => simp [hs, Slot.isMain] at hkey
    | _ => rfl
  · rcases htasks id with heq | ⟨hid, -⟩
    · rw [heq, ht]
    · obtain ⟨ph, hph, hne⟩ := h.task hid
      rw [ht] at hph
      exact absurd (Option.some.inj hph).symm (hne t)
  · rcases htasks id with heq | ⟨hid, hsome⟩
    · rw [heq]
    · obtain ⟨ph, hph, -⟩ := h.task hid
      simp [hph, hsome]

/-! ## Planning comes once -/

/-- What a told plan leaves for the main flow to be at. -/
structure Planned (p : Progress) : Prop where
  unplanned : p.plan = none → ∀ id, p.tasks id = none
  main : p.plan.isSome → p.main = .planned ∨ p.main = .synthesizing ∨ p.main = .answered ∨
    p.main = .completed ∨ p.main = .stopped

/-- A plan is told once, and its tasks with it. By induction on the events. -/
theorem Accepts.planned (h : Accepts late ds) : Planned (of ds) := by
  induction h with
  | nil => exact ⟨fun _ _ => rfl, by simp [of]⟩
  | @concat ds d h he ih =>
      rw [of_concat]
      generalize of ds = p at he ih
      rcases he with he | ⟨-, he⟩
      swap
      · rw [he.after]
        exact ih
      refine ⟨fun hp id => ?_, fun hp => ?_⟩
      · have hplan : ∀ tasks s, d ≠ .planCreated tasks s := by
          rintro tasks s rfl
          cases hp
        rw [plan_after hplan] at hp
        by_cases hd : d.teller = .task id
        · obtain ⟨ph, hph, -⟩ := he.task hd
          rw [ih.unplanned hp id] at hph
          cases hph
        · rw [tasks_after_of_ne hd hplan]
          exact ih.unplanned hp id
      · by_cases hd : d.teller = .main
        · obtain ⟨hrun, hdone, ha⟩ := he
          cases d with
          | planCreated tasks s => exact .inl rfl
          | synthesizing t => exact .inr (.inl rfl)
          | runCompleted m => exact .inr (.inr (.inr (.inl rfl)))
          | runFailed m => exact .inr (.inr (.inr (.inr rfl)))
          | runCancelled m => exact .inr (.inr (.inr (.inr rfl)))
          | callFinished r =>
              have hcall : p.Calling r.key := ha.1
              have hmain : (p.after (.callFinished r)).main = p.main.finish r.slot := rfl
              simp only [Calling, CallRecord.key] at hcall
              rw [hmain]
              rcases ih.main hp with h | h | h | h | h <;> rw [h] at hcall ⊢ <;>
                cases hs : r.slot <;> simp_all [MainPhase.finish, EventData.teller]
          | taskEscalated | taskStarted | taskInvalid | taskCompleted => cases hd
          | callOutput => cases hd
          | _ =>
              rcases ih.main hp with h | h | h | h | h <;> simp_all [Allows, Between]
        · have hplan : ∀ tasks s, d ≠ .planCreated tasks s := by
            rintro tasks s rfl
            exact hd rfl
          rw [main_after hd]
          rw [plan_after hplan] at hp
          exact ih.main hp

/-- A task of a plan starts where the plan put it. -/
theorem startPhases_eq {tasks : List Task} (h : (tasks.map Task.id).Nodup) {t : Task}
    (ht : t ∈ tasks) : startPhases tasks t.id = some (.next t.preferredTier 1) := by
  unfold startPhases
  cases hfind : tasks.find? (·.id = t.id) with
  | none =>
      rw [List.find?_eq_none] at hfind
      exact absurd (decide_eq_true rfl) (hfind t ht)
  | some u =>
      have hid : u.id = t.id := by simpa using List.find?_some hfind
      rw [List.inj_on_of_nodup_map h (List.mem_of_find?_eq_some hfind) ht hid]
      rfl

/-- A plan is expected only before any task is known. -/
theorem Planned.tasks_eq_none {tasks : List Task} {instruction : Str} (hp : p.Planned)
    (h : p.Expects (.planCreated tasks instruction)) (id : Str) : p.tasks id = none := by
  refine hp.unplanned ?_ id
  obtain ⟨⟨k, hk⟩, -⟩ := h.allows
  by_contra hne
  have := hp.main (Option.isSome_iff_ne_none.mpr hne)
  simp [hk] at this

/-- **An event of somebody else leaves a task where it was.** -/
theorem SameTask.after (hp : p.Planned) (h : p.Admits late d) (hd : d.teller ≠ .task id)
    (hid : (p.tasks id).isSome) : SameTask id p (p.after d) := by
  rcases h with h | ⟨-, h⟩
  swap
  · rw [h.after]
    exact .refl id p
  refine ⟨tasks_after_of_ne hd ?_, fun t n => ?_⟩
  · rintro tasks s rfl
    rw [hp.tasks_eq_none h id] at hid
    cases hid
  · rw [mem_finished_after]
    refine or_iff_left ?_
    rintro ⟨r, rfl, hr⟩
    refine hd ?_
    have hs : r.slot = .work id n := congrArg Key.slot hr
    simp [EventData.teller, hs]

/-- A task is done when that is told. -/
theorem done_after {t : Tier} (h : (p.after d).tasks id = some (.done t)) :
    p.tasks id = some (.done t) ∨ ∃ tier n j r, d = .taskCompleted id tier n j r := by
  by_cases hplan : ∃ tasks s, d = .planCreated tasks s
  · obtain ⟨tasks, s, rfl⟩ := hplan
    change startPhases tasks id = _ at h
    obtain ⟨u, -, hu⟩ := Option.map_eq_some_iff.mp h
    cases hu
  · have hplan : ∀ tasks s, d ≠ .planCreated tasks s := fun tasks s h => hplan ⟨tasks, s, h⟩
    by_cases hd : d.teller = .task id
    · change tasksAfter p.tasks d id = _ at h
      cases d with
      | taskEscalated => cases hd; simp [tasksAfter] at h
      | taskStarted => cases hd; simp [tasksAfter] at h
      | taskInvalid => cases hd; simp [tasksAfter] at h
      | taskCompleted => cases hd; exact .inr ⟨_, _, _, _, rfl⟩
      | callFinished r =>
          simp only [EventData.teller] at hd
          cases hs : r.slot with
          | work k n =>
              rw [hs] at hd
              cases hd
              simp [tasksAfter, hs] at h
          | _ => simp [hs] at hd
      | _ => cases hd
    · rw [tasks_after_of_ne hd hplan] at h
      exact .inl h

/-- A task that is done stays done. -/
theorem Planned.done (hp : p.Planned) (h : p.Admits late d) {t : Tier}
    (ht : p.tasks id = some (.done t)) : (p.after d).tasks id = some (.done t) := by
  by_cases hd : d.teller = .task id
  · obtain ⟨ph, hph, hne⟩ := (h.of_teller (by simp [hd])).task hd
    rw [ht] at hph
    exact absurd (Option.some.inj hph).symm (hne t)
  · rw [(SameTask.after hp h hd (by rw [ht]; rfl)).task, ht]

/-- A call stays in progress while its own task tells nothing. -/
theorem Calling.after (hp : p.Planned) (h : p.Admits late d) {key : Key} (hc : p.Calling key)
    (hmain : key.slot.isMain = true → d.teller ≠ .main)
    (htask : ∀ id n, key.slot = .work id n → d.teller ≠ .task id) :
    (p.after d).Calling key := by
  obtain ⟨slot, tier⟩ := key
  cases slot with
  | work id n =>
      have hc : p.tasks id = some (.calling tier n) := hc
      change (p.after d).tasks id = _
      rw [(SameTask.after hp h (htask id n rfl) (by rw [hc]; rfl)).task, hc]
  | _ =>
      have hsame := main_after (p := p) (hmain rfl)
      simp only [Calling] at hc ⊢
      rw [hsame]
      exact hc

/-- Only the event of an end ends a run. -/
theorem ended_after (h : (p.after d).Ended) : p.Ended ∨ d.metrics?.isSome := by
  by_cases hm : d.teller = .main
  · cases d with
    | runCompleted | runFailed | runCancelled => exact .inr rfl
    | providerNotice | extractFailed | runStarted | localAttempt | localSkipped | localSolve
    | localSample | localAccepted | answering | planInvalid | planCreated | synthesizing =>
        first | exact .inl h | (rcases h with h | h <;> cases h)
    | localVerdict t v w =>
        rcases h with h | h <;> change (if v.escalate then _ else _) = _ at h <;>
          split at h <;> cases h
    | escalated t m a b r =>
        rcases h with h | h <;> change (if m = .plan then _ else _) = _ at h <;>
          split at h <;> cases h
    | localCritique =>
        left
        unfold Ended at h ⊢
        change p.main.critique = _ ∨ p.main.critique = _ at h
        cases hmain : p.main <;> simp_all [MainPhase.critique]
    | callFinished r =>
        left
        unfold Ended at h ⊢
        change p.main.finish r.slot = _ ∨ p.main.finish r.slot = _ at h
        cases hmain : p.main <;> cases hs : r.slot <;> simp_all [MainPhase.finish]
    | callOutput => cases hm
    | taskEscalated | taskStarted | taskInvalid | taskCompleted => cases hm
  · left
    unfold Ended at h ⊢
    rwa [main_after hm] at h

/-- The end is told, and stays told. -/
theorem Accepts.ended (h : Accepts late ds) (hd : d ∈ ds) (hm : d.metrics?.isSome) :
    (of ds).Ended := by
  have hend : ∀ (p : Progress) (d : EventData), d.metrics?.isSome → (p.after d).Ended := by
    intro p d hm
    cases d with
    | runCompleted => exact .inl rfl
    | runFailed | runCancelled => exact .inr rfl
    | _ => cases hm
  induction h with
  | nil => cases hd
  | @concat ds d' h he ih =>
      rw [of_concat]
      rcases List.mem_append.mp hd with hd | hd
      · rcases he with he | ⟨-, he⟩
        · rcases ih hd with hmain | hmain
          · obtain ⟨m, rfl | rfl⟩ := he.2.1 hmain
            · exact hend _ _ rfl
            · exact hend _ _ rfl
          · exact absurd hmain he.1
        · rw [he.after]
          exact ih hd
      · obtain rfl := List.mem_singleton.mp hd
        exact hend _ _ hm

/-- An event sets the phase of a task, or leaves it. -/
theorem tasksAfter_cases (d : EventData) (id : Str) :
    (∃ v, ∀ ts, tasksAfter ts d id = v) ∨ ∀ ts, tasksAfter ts d id = ts id := by
  have hset : ∀ (k : Str) (v : Option TaskPhase),
      (∃ w, ∀ ts : Str → Option TaskPhase, Function.update ts k v id = w) ∨
      ∀ ts : Str → Option TaskPhase, Function.update ts k v id = ts id := by
    intro k v
    by_cases hk : id = k
    · subst hk
      exact .inl ⟨v, fun ts => Function.update_self _ _ _⟩
    · exact .inr fun ts => Function.update_of_ne hk _ _
  cases d with
  | planCreated tasks s => exact .inl ⟨_, fun _ => rfl⟩
  | taskEscalated | taskStarted | taskInvalid | taskCompleted => exact hset _ _
  | callFinished r =>
      cases hs : r.slot with
      | work k n => simpa only [tasksAfter, hs] using hset k _
      | _ => exact .inr fun ts => by simp only [tasksAfter, hs]
  | _ => exact .inr fun _ => rfl

/-- A task that is known stays known. -/
theorem isSome_after (h : (p.tasks id).isSome) (hplan : ∀ tasks s, d ≠ .planCreated tasks s) :
    ((p.after d).tasks id).isSome := by
  by_cases hd : d.teller = .task id
  · change (tasksAfter p.tasks d id).isSome
    cases d with
    | taskEscalated | taskStarted | taskInvalid | taskCompleted => cases hd; simp [tasksAfter]
    | callFinished r =>
        simp only [EventData.teller] at hd
        cases hs : r.slot with
        | work k n =>
            rw [hs] at hd
            cases hd
            simp [tasksAfter, hs]
        | _ => simp [hs] at hd
    | _ => cases hd
  · rw [tasks_after_of_ne hd hplan]
    exact h

/-- The tasks known are those of the plan. -/
theorem Accepts.known {tasks : List Task} (h : Accepts late ds)
    (hplan : (of ds).plan = some tasks) :
    ((of ds).tasks id).isSome ↔ id ∈ tasks.map Task.id := by
  induction h generalizing tasks with
  | nil => cases hplan
  | @concat ds d h he ih =>
      rw [of_concat] at hplan ⊢
      by_cases hd : ∃ tasks' s, d = .planCreated tasks' s
      · obtain ⟨tasks', s, rfl⟩ := hd
        obtain rfl : tasks' = tasks := Option.some.inj hplan
        change (startPhases tasks' id).isSome ↔ _
        simp [startPhases, List.find?_isSome]
      · have hd : ∀ tasks' s, d ≠ .planCreated tasks' s := fun tasks' s h => hd ⟨tasks', s, h⟩
        rw [plan_after hd] at hplan
        rw [← ih hplan]
        by_cases ht : d.teller = .task id
        · obtain ⟨ph, hph, -⟩ := (he.of_teller (by simp [ht])).task ht
          have hsome : ((of ds).tasks id).isSome := by rw [hph]; rfl
          exact iff_of_true (isSome_after hsome hd) hsome
        · rw [tasks_after_of_ne ht hd]

theorem SameMain.congr {p' : Progress} (h : SameMain p p') (d : EventData) :
    SameMain (p.after d) (p'.after d) where
  main := by
    change p'.main.after d = p.main.after d
    rw [h.main]
  seen := by
    simp only [Progress.after]
    rw [h.seen]
  plan := by
    simp only [Progress.after]
    rw [h.plan]
  finished key hkey := by
    rw [mem_finished_after, mem_finished_after, h.finished key hkey]
  done id t ht := by
    change tasksAfter p'.tasks d id = _
    change tasksAfter p.tasks d id = _ at ht
    rcases tasksAfter_cases d id with ⟨v, hv⟩ | hv
    · rw [hv] at ht ⊢
      exact ht
    · rw [hv] at ht ⊢
      exact h.done id t ht
  told id := by
    change (tasksAfter p'.tasks d id).isSome ↔ (tasksAfter p.tasks d id).isSome
    rcases tasksAfter_cases d id with ⟨v, hv⟩ | hv
    · rw [hv, hv]
    · rw [hv, hv]
      exact h.told id

theorem SameTask.congr {p' : Progress} (h : SameTask id p p') (d : EventData) :
    SameTask id (p.after d) (p'.after d) where
  task := by
    change tasksAfter p'.tasks d id = tasksAfter p.tasks d id
    rcases tasksAfter_cases d id with ⟨v, hv⟩ | hv
    · rw [hv, hv]
    · rw [hv, hv, h.task]
  finished t n := by
    rw [mem_finished_after, mem_finished_after, h.finished t n]

/-! ## Sequences -/

theorem Accepts.of_append {new : List EventData} (h : Accepts late (ds ++ new)) :
    Accepts late ds := by
  induction new using List.reverseRecOn with
  | nil => simpa using h
  | append_singleton new d ih =>
      rw [← List.append_assoc] at h
      exact ih (accepts_concat.mp h).1

theorem SameMain.append {new : List EventData} (h : Accepts late (ds ++ new))
    (hnew : ∀ d ∈ new, d.teller ≠ .main) : SameMain (of ds) (of (ds ++ new)) := by
  induction new using List.reverseRecOn with
  | nil => simpa using SameMain.refl (of ds)
  | append_singleton new d ih =>
      rw [← List.append_assoc] at h ⊢
      obtain ⟨h, he⟩ := accepts_concat.mp h
      rw [of_concat]
      exact (ih h fun d' hd' => hnew d' (by simp [hd'])).trans (.after he (hnew d (by simp)))

theorem SameTask.append {new : List EventData} (h : Accepts late (ds ++ new))
    (hid : ((of ds).tasks id).isSome) (hnew : ∀ d ∈ new, d.teller ≠ .task id) :
    SameTask id (of ds) (of (ds ++ new)) := by
  induction new using List.reverseRecOn with
  | nil => simpa using SameTask.refl id (of ds)
  | append_singleton new d ih =>
      rw [← List.append_assoc] at h ⊢
      obtain ⟨h, he⟩ := accepts_concat.mp h
      have hsame := ih h fun d' hd' => hnew d' (by simp [hd'])
      rw [of_concat]
      exact hsame.trans (.after h.planned he (hnew d (by simp)) (by rw [hsame.task]; exact hid))

theorem mem_outputs_append {new : List EventData} {key : Key}
    (hk : key ∈ (of (ds ++ new)).outputs) :
    key ∈ (of ds).outputs ∨ ∃ r o n, .callOutput r o n ∈ new ∧ r.key = key := by
  induction new using List.reverseRecOn with
  | nil => exact .inl (by simpa using hk)
  | append_singleton new d ih =>
      rw [← List.append_assoc, of_concat, mem_outputs_after] at hk
      rcases hk with hk | ⟨r, o, n, rfl, hr⟩
      · exact (ih hk).imp_right fun ⟨r, o, n, hm, hr⟩ => ⟨r, o, n, by simp [hm], hr⟩
      · exact .inr ⟨r, o, n, by simp, hr⟩

theorem mem_finished_of {key : Key} :
    key ∈ (of ds).finished ↔ ∃ r, .callFinished r ∈ ds ∧ r.key = key := by
  induction ds using List.reverseRecOn with
  | nil => simp [of]
  | append_singleton ds d ih =>
      rw [of_concat, mem_finished_after, ih]
      simp only [List.mem_append, List.mem_singleton]
      constructor
      · rintro (⟨r, hr, hk⟩ | ⟨r, rfl, hk⟩)
        · exact ⟨r, .inl hr, hk⟩
        · exact ⟨r, .inr rfl, hk⟩
      · rintro ⟨r, hr | rfl, hk⟩
        · exact .inl ⟨r, hr, hk⟩
        · exact .inr ⟨r, rfl, hk⟩

theorem mem_outputs_of {key : Key} :
    key ∈ (of ds).outputs ↔ ∃ r o n, .callOutput r o n ∈ ds ∧ r.key = key := by
  induction ds using List.reverseRecOn with
  | nil => simp [of]
  | append_singleton ds d ih =>
      rw [of_concat, mem_outputs_after, ih]
      simp only [List.mem_append, List.mem_singleton]
      constructor
      · rintro (⟨r, o, n, hr, hk⟩ | ⟨r, o, n, rfl, hk⟩)
        · exact ⟨r, o, n, .inl hr, hk⟩
        · exact ⟨r, o, n, .inr rfl, hk⟩
      · rintro ⟨r, o, n, hr | rfl, hk⟩
        · exact .inl ⟨r, o, n, hr, hk⟩
        · exact .inr ⟨r, o, n, rfl, hk⟩

/-- Each event of an accepted sequence could come after those before it. -/
theorem Accepts.admits {before after : List EventData}
    (h : Accepts late (before ++ d :: after)) : (of before).Admits late d := by
  rw [List.append_cons] at h
  exact (accepts_concat.mp h.of_append).2

end Progress

end HorizonRelay
