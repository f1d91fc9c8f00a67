import HorizonRelay.Runs.Tasks
import Mathlib.Algebra.BigOperators.Group.Finset.Piecewise
import Mathlib.Algebra.Order.BigOperators.Group.Finset

/-!
# Bounded work

Every run makes boundedly many model calls, whatever the provider does: the main flow makes
at most one call for each slot of the schedule, a worker at most one for each tier of its
task's ladder.

## Main definitions

* `CallBounds` — the bounds.
* `workCalls`, `TaskLadder` — the work calls for one task, and what holds of them.

## Main results

* `calls_bounded` — both, for every reachable state.
-/

namespace HorizonRelay

open Py Coop

variable {x : Setup} {permit : Permit} {l : Ledger} {p : Plan}

/-- How many calls a run makes on local tiers and on the cloud. -/
structure CallBounds (x : Setup) (l : Ledger) : Prop where
  locals : (l.calls.countP fun c => c.record.tier ≠ .cloud) ≤
    (if x.localExtract then 1 else 0) + x.locals.length * (x.policy.localSamples + 1) +
      x.limits.maxTasks * (x.policy.localWorkerAttempts + (x.locals.length - 1))
  cloud : (l.calls.countP fun c => c.record.tier = .cloud) ≤ x.limits.cloudCalls

/-- The work calls for a task, in order. -/
def workCalls (l : Ledger) (t : Task) : List Call :=
  l.calls.filter fun c => c.payload.taskId = some t.id

/-- The attempt failed with a message: its call raised an error of the relay, or its value
did not pass the check. -/
def Call.FailedWith (t : Task) (inputs : Inputs) (c : Call) (msg : Str) : Prop :=
  (∃ e, c.ended = some (.error e) ∧ e.isRelayError ∧ msg = e.msg) ∨
    ∃ v e, c.ended = some (.ok v) ∧ validateResult t.resultType v inputs = .error e ∧
      e.cls = .validation ∧ msg = e.msg

/-- What holds of the work calls for a task. -/
structure TaskLadder (x : Setup) (l : Ledger) (t : Task) : Prop where
  tiers : ((workCalls l t).map fun c => c.record.tier) <+: x.policy.workerTiers t x.tiers
  /-- The `i`th call lists the errors of the `i` earlier attempts, which all failed. -/
  errors : ∀ (i : ℕ) (c : Call), (workCalls l t)[i]? = some c → ∃ inputs errors,
    c.payload = .work t inputs x.goal (i + 1) errors ∧ errors.length = i ∧
      ∀ j < i, ∃ c' msg, (workCalls l t)[j]? = some c' ∧ errors[j]? = some msg ∧
        c'.FailedWith t inputs msg
  /-- An accepted result is the value of the last call. -/
  accepted : ∀ v, l.results.get? t.id = some v →
    ∃ c, (workCalls l t).getLast? = some c ∧ c.ended = some (.ok v)
  /-- A task for a local tier reaches the cloud only as the last rung of its ladder. -/
  lastRung : t.preferredTier ≠ .cloud → ∀ (i : ℕ) (c : Call), (workCalls l t)[i]? = some c →
    c.record.tier = .cloud → i + 1 = (x.policy.workerTiers t x.tiers).length

/-! ## Counting calls -/

/-- Every call is the main flow's or a job's. -/
theorem countP_calls (h : CallsOk x permit l) (q : Call → Bool) :
    l.calls.countP q = (l.mine .main).countP q +
      ∑ n ∈ Finset.range l.jobs.length, (l.mine (.job n)).countP q := by
  simp only [Ledger.mine, List.countP_filter]
  have hmaker := h.maker
  generalize l.calls = cs at hmaker
  induction cs with
  | nil => simp
  | cons c cs ih =>
      have ih := ih fun d hd => hmaker d (List.mem_cons_of_mem _ hd)
      simp only [List.countP_cons, Finset.sum_add_distrib, ih]
      rcases hmaker c (by simp) with hc | ⟨m, hm, hc⟩
      · simp only [hc, decide_true, Bool.and_true, reduceCtorEq, decide_false, Bool.and_false,
          Bool.false_eq_true, if_false, Finset.sum_const_zero]
        omega
      · have hsum : ∑ n ∈ Finset.range l.jobs.length,
            (if (q c && decide (c.thread = .job n)) = true then 1 else 0) =
            if q c = true then 1 else 0 := by
          have hmem : m ∈ Finset.range l.jobs.length := Finset.mem_range.mpr hm
          cases hq : q c
          · simp
          · simp only [hc, Thread.job.injEq, Bool.true_and, decide_eq_true_eq,
              Finset.sum_ite_eq, hmem, if_true]
        have hmain : (q c && decide (c.thread = .main)) = false := by simp [hc]
        rw [hsum, hmain, if_neg Bool.false_ne_true]
        omega

/-- Whether a slot belongs to the local part of a run. -/
def Slot.isLocal : Slot → Bool
  | .extract | .judge .. => true
  | _ => false

theorem filter_isLocal_schedule : x.schedule.filter Slot.isLocal = x.localSlots := by
  have hlocal : ∀ s ∈ x.localSlots, s.isLocal = true := by
    intro s hs
    rw [Setup.localSlots, List.mem_append, List.mem_flatMap] at hs
    rcases hs with hs | ⟨t, -, hs⟩
    · split at hs
      · rw [List.mem_singleton.mp hs]
        rfl
      · cases hs
    · obtain ⟨n, -, rfl⟩ := List.mem_map.mp hs
      rfl
  have hcloud : ∀ s ∈ x.cloudSlots, ¬ s.isLocal = true := by
    intro s hs
    simp only [Setup.cloudSlots, List.mem_cons, List.mem_append, List.mem_map,
      List.not_mem_nil, or_false, List.cons_append] at hs
    rcases hs with rfl | ⟨n, -, rfl⟩ | rfl <;> simp [Slot.isLocal]
  rw [Setup.schedule, List.filter_append, List.filter_eq_self.mpr hlocal,
    List.filter_eq_nil_iff.mpr hcloud, List.append_nil]

theorem length_localSlots : x.localSlots.length =
    (if x.localExtract then 1 else 0) + x.locals.length * (x.policy.localSamples + 1) := by
  have hflat : ∀ ts : List Tier, (ts.flatMap x.judgeSlots).length =
      ts.length * (x.policy.localSamples + 1) := by
    intro ts
    induction ts with
    | nil => simp
    | cons t ts ih =>
        rw [List.flatMap_cons, List.length_append, ih, List.length_cons, Nat.succ_mul,
          Setup.judgeSlots, List.length_map, List.length_range', Nat.add_comm]
  rw [Setup.localSlots, List.length_append, hflat]
  split <;> rfl

/-- A local call of the main flow has a local slot. -/
theorem MainOk.isLocal (h : MainOk x l) {c : Call} (hc : c ∈ l.mine .main)
    (ht : c.record.tier ≠ .cloud) : c.slot.isLocal = true := by
  have htier := h.tiers c hc
  rw [Call.slot]
  cases hp : c.payload <;> rw [hp] at htier <;> first
    | rfl
    | exact absurd (Option.some.inj htier).symm ht
    | cases htier

/-- The main flow makes at most one local call for each local slot. -/
theorem MainOk.countP_local_le (h : MainOk x l) :
    ((l.mine .main).countP fun c => c.record.tier ≠ .cloud) ≤ x.localSlots.length := by
  calc ((l.mine .main).countP fun c => c.record.tier ≠ .cloud)
      ≤ (l.mine .main).countP fun c => c.slot.isLocal :=
        List.countP_mono_left fun c hc ht => h.isLocal hc (by simpa using ht)
    _ = ((l.mine .main).map Call.slot).countP Slot.isLocal := by
        rw [List.countP_map]
        rfl
    _ ≤ x.schedule.countP Slot.isLocal := h.schedule.countP_le
    _ = x.localSlots.length := by rw [List.countP_eq_length_filter, filter_isLocal_schedule]

/-! ## Ladders -/

/-- The tiers of a worker's calls come first on the ladder of its task. -/
theorem Ladder.opening {t : Task} {inputs : Inputs} {cs : List Call} (h : Ladder x t inputs cs) :
    (cs.map fun c => c.record.tier) <+: x.policy.workerTiers t x.tiers := by
  refine List.prefix_iff_getElem?.mpr fun i hi => ?_
  rw [List.length_map] at hi
  rw [List.getElem_map]
  exact h.tier i _ (List.getElem?_eq_getElem hi)

theorem JobOk.opening {n : ℕ} {job : Job} (h : JobOk x l n job) :
    ((l.mine (.job n)).map fun c => c.record.tier) <+:
      x.policy.workerTiers job.task x.tiers := by
  rcases h.ladder with hnil | ⟨inputs, -, hladder⟩
  · rw [hnil]
    exact List.nil_prefix
  · exact hladder.opening

/-- When all attempts failed, their errors are listed one by one. -/
theorem map_some_failures {t : Task} {inputs : Inputs} {cs : List Call}
    (h : ∀ c ∈ cs, (c.failure t inputs).isSome) :
    (failures t inputs cs).map some = cs.map (Call.failure t inputs) := by
  induction cs with
  | nil => rfl
  | cons c cs ih =>
      obtain ⟨msg, hmsg⟩ := Option.isSome_iff_exists.mp (h c (by simp))
      have ih := ih fun d hd => h d (by simp [hd])
      rw [failures] at ih ⊢
      rw [List.filterMap_cons_some hmsg, List.map_cons, List.map_cons, ih, hmsg]

theorem failedWith_of_failure {t : Task} {inputs : Inputs} {c : Call} {msg : Str}
    (h : c.failure t inputs = some msg) : c.FailedWith t inputs msg := by
  unfold Call.failure at h
  split at h
  · rename_i e hend
    split at h <;> cases h
    rename_i he
    exact .inl ⟨e, hend, (Bool.and_eq_true _ _ ▸ he).1, rfl⟩
  · rename_i v hend
    split at h
    · rename_i e hcheck
      split at h <;> cases h
      rename_i hcls
      exact .inr ⟨v, e, hend, hcheck, hcls, rfl⟩
    · cases h
  · cases h

/-- Each call lists the errors of the attempts before it, all of which failed. -/
theorem Ladder.errors {t : Task} {inputs : Inputs} {cs : List Call} (h : Ladder x t inputs cs)
    {i : ℕ} {c : Call} (hi : cs[i]? = some c) :
    ∃ errors, c.payload = .work t inputs x.goal (i + 1) errors ∧ errors.length = i ∧
      ∀ j < i, ∃ c' msg, cs[j]? = some c' ∧ errors[j]? = some msg ∧
        c'.FailedWith t inputs msg := by
  have hlt := (List.getElem?_eq_some_iff.mp hi).1
  have hall : ∀ c ∈ cs.take i, (c.failure t inputs).isSome := by
    intro c' hc'
    obtain ⟨j, hj⟩ := List.mem_iff_getElem?.mp hc'
    have hji := (List.getElem?_eq_some_iff.mp hj).1
    rw [List.length_take] at hji
    rw [List.getElem?_take_of_lt (by omega)] at hj
    exact h.failed j c' hj (by omega)
  have hmap := map_some_failures hall
  refine ⟨_, h.payload i c hi, ?_, fun j hj => ?_⟩
  · have := congrArg List.length hmap
    simp only [List.length_map, List.length_take] at this
    omega
  · have hjth := congrArg (fun fs : List (Option Str) => fs[j]?) hmap
    have hcj := List.getElem?_eq_getElem (show j < cs.length by omega)
    simp only [List.getElem?_map, List.getElem?_take_of_lt hj, hcj, Option.map_some] at hjth
    obtain ⟨msg, hmsg, hfail⟩ := Option.map_eq_some_iff.mp hjth
    exact ⟨_, msg, hcj, hmsg, failedWith_of_failure hfail.symm⟩

/-- The work calls for the task of a job are the calls of that job. -/
theorem Ledger.Ok.workCalls_eq (h : l.Ok x permit) {n : ℕ} {job : Job}
    (hj : l.jobs[n]? = some job) : workCalls l job.task = l.mine (.job n) := by
  refine List.filter_congr fun c hc => ?_
  rw [decide_eq_decide]
  constructor
  · intro htask
    cases hp : c.payload with
    | work t inputs goal attempt errors =>
        rw [hp] at htask
        obtain ⟨m, job', hj', rfl, ht⟩ := h.job_of_work hc hp
        rw [ht, eq_of_task_id h.plan.ids hj' hj (Option.some.inj htask)]
    | _ =>
        rw [hp] at htask
        cases htask
  · intro ht
    obtain ⟨_, _, _, hp⟩ := (h.jobs n job hj).payload (List.mem_filter.mpr ⟨hc, by simpa using ht⟩)
    rw [hp]
    rfl

/-- What only the last entry of a list can be, is its last entry. -/
theorem length_eq_of_pairwise {α : Type} {as : List α} {a : α}
    (h : as.Pairwise fun b _ => b ≠ a) {i : ℕ} (hi : as[i]? = some a) : i + 1 = as.length := by
  obtain ⟨hlt, rfl⟩ := List.getElem?_eq_some_iff.mp hi
  by_contra hne
  exact List.pairwise_iff_getElem.mp h i (i + 1) hlt (by omega) (by omega) rfl

/-- What holds of the work calls for a task that has a job. -/
theorem Ledger.Ok.ladder_of_job (h : l.Ok x permit) {n : ℕ} {job : Job}
    (hj : l.jobs[n]? = some job) : TaskLadder x l job.task := by
  have hjob := h.jobs n job hj
  have hprefix := hjob.opening
  rw [← h.workCalls_eq hj] at hprefix
  refine { tiers := hprefix, errors := ?_, accepted := ?_, lastRung := ?_ }
  · rw [h.workCalls_eq hj]
    intro i c hi
    rcases hjob.ladder with hnil | ⟨inputs, -, hladder⟩
    · rw [hnil] at hi
      cases hi
    · exact ⟨inputs, hladder.errors hi⟩
  · intro v hv
    obtain ⟨inputs, c, -, -, hlast, hend⟩ := hjob.accepted v hv
    exact ⟨c, by rw [h.workCalls_eq hj, hlast], hend⟩
  · intro hpref i c hi htier
    have hlt := (List.getElem?_eq_some_iff.mp hi).1
    obtain ⟨rest, hrest⟩ := hprefix
    refine length_eq_of_pairwise (RoutingPolicy.workerTiers_pairwise _
      (availableTiers_pairwise _)) ?_
    rw [← htier]
    change (x.policy.workerTiers job.task x.tiers)[i]? = _
    rw [← hrest, List.getElem?_append_left (by simpa using hlt), List.getElem?_map, hi]
    rfl

/-- What holds of the work calls for a task without a job: there are none. -/
theorem Ledger.Ok.ladder_of_no_job (h : l.Ok x permit) (hp : l.plan.isSome) {t : Task}
    (ht : ∀ job ∈ l.jobs, job.task.id ≠ t.id) : TaskLadder x l t := by
  have hnil : workCalls l t = [] := by
    refine List.filter_eq_nil_iff.mpr fun c hc htask => ?_
    cases hp : c.payload with
    | work t' inputs goal attempt errors =>
        rw [hp] at htask
        obtain ⟨m, job', hj', rfl, -⟩ := h.job_of_work hc hp
        exact ht job' (List.mem_of_getElem? hj') (by simpa [Payload.taskId] using htask)
    | _ =>
        rw [hp] at htask
        cases htask
  refine { tiers := ?_, errors := ?_, accepted := fun v hv => ?_, lastRung := ?_ }
  · rw [hnil]
    exact List.nil_prefix
  · simp [hnil]
  · obtain ⟨job, hj, hid⟩ := h.plan.keys hp t.id (Dict.mem_keys_iff.mpr ⟨v, hv⟩)
    exact absurd hid (ht job hj)
  · simp [hnil]

theorem Ledger.Ok.taskLadder (h : l.Ok x permit) (hp : l.plan = some p) {t : Task}
    (ht : t ∈ p.tasks) : TaskLadder x l t := by
  by_cases hjob : ∃ job ∈ l.jobs, job.task.id = t.id
  · obtain ⟨job, hj, hid⟩ := hjob
    obtain ⟨raw, hraw⟩ := h.plan.accepted p hp
    obtain rfl : job.task = t := List.inj_on_of_nodup_map (accepted_of_checkedPlan hraw).ids
      (h.plan.tasks p hp job hj) ht hid
    obtain ⟨n, hn⟩ := List.mem_iff_getElem?.mp hj
    exact h.ladder_of_job hn
  · exact h.ladder_of_no_job (by rw [hp]; rfl) fun job hj hid => hjob ⟨job, hj, hid⟩

/-! ## Bounds -/

/-- Every job is about a task of the plan, each about another one. -/
theorem PlanOk.jobs_length_le (h : PlanOk x l) : l.jobs.length ≤ x.limits.maxTasks := by
  cases hp : l.plan with
  | none =>
      rw [h.none hp]
      exact Nat.zero_le _
  | some p =>
      obtain ⟨raw, hraw⟩ := h.accepted p hp
      have hsub : (l.jobs.map fun job => job.task.id) ⊆ p.tasks.map Task.id := by
        intro id hid
        obtain ⟨job, hj, rfl⟩ := List.mem_map.mp hid
        exact List.mem_map_of_mem (h.tasks p hp job hj)
      have hle := (List.subperm_of_subset h.ids hsub).length_le
      rw [List.length_map, List.length_map] at hle
      exact hle.trans (accepted_of_checkedPlan hraw).length_le

/-- A worker makes at most one local call for each local rung of its ladder. -/
theorem Ledger.Ok.countP_job_le (h : l.Ok x permit) {n : ℕ} (hn : n < l.jobs.length) :
    ((l.mine (.job n)).countP fun c => c.record.tier ≠ .cloud) ≤
      x.policy.localWorkerAttempts + (x.locals.length - 1) := by
  have hj := List.getElem?_eq_getElem hn
  have htier : (l.jobs[n]).task.preferredTier ∈ x.tiers := by
    cases hp : l.plan with
    | none => exact absurd hn (by simp [h.plan.none hp])
    | some p =>
        obtain ⟨raw, hraw⟩ := h.plan.accepted p hp
        exact (accepted_of_checkedPlan hraw).tier _ (h.plan.tasks p hp _ (List.getElem_mem hn))
  calc ((l.mine (.job n)).countP fun c => c.record.tier ≠ .cloud)
      = ((l.mine (.job n)).map fun c => c.record.tier).countP (· ≠ .cloud) := by
        rw [List.countP_map]
        rfl
    _ ≤ (x.policy.workerTiers (l.jobs[n]).task x.tiers).countP (· ≠ .cloud) :=
        (h.jobs n _ hj).opening.sublist.countP_le
    _ ≤ x.policy.localWorkerAttempts + (x.locals.length - 1) :=
        RoutingPolicy.countP_workerTiers_le htier

theorem Ledger.Ok.callBounds (h : l.Ok x permit) : CallBounds x l where
  locals := by
    rw [countP_calls h.calls, ← length_localSlots]
    refine Nat.add_le_add h.main.countP_local_le ?_
    calc ∑ n ∈ Finset.range l.jobs.length,
          (l.mine (.job n)).countP (fun c => c.record.tier ≠ .cloud)
        ≤ (Finset.range l.jobs.length).card •
            (x.policy.localWorkerAttempts + (x.locals.length - 1)) :=
          Finset.sum_le_card_nsmul _ _ _ fun n hn => h.countP_job_le (Finset.mem_range.mp hn)
      _ = l.jobs.length * (x.policy.localWorkerAttempts + (x.locals.length - 1)) := by
          rw [Finset.card_range]
          rfl
      _ ≤ _ := Nat.mul_le_mul_right _ h.plan.jobs_length_le
  cloud := h.calls.spent ▸ h.calls.within.calls

/-- **Bounded work.** In every reachable state the local calls are at most those of the
cascade and of the ladders, the cloud calls at most those of the budget; and the work calls
for a task of the plan climb its ladder, each only because all earlier ones failed. -/
theorem calls_bounded {c : State} (h : x.Reachable c) :
    CallBounds x c.shared.toLedger ∧ ∀ p, c.shared.plan = some p → ∀ t ∈ p.tasks,
      TaskLadder x c.shared.toLedger t :=
  ⟨h.ok.callBounds, fun _ hp _ ht => h.ok.taskLadder hp ht⟩

theorem calls_bounded_planRun : ∃ (c : State) (p : Plan), c.shared.plan = some p ∧
    c.shared.calls.length = 6 ∧ CallBounds planSetup c.shared.toLedger ∧
    ∀ t ∈ p.tasks, TaskLadder planSetup c.shared.toLedger t := by
  obtain ⟨c, hc, hcalls⟩ := System.exists_reach_of_steps (S := planSetup.system) (s := {}) planRun
    (p := fun c => c.shared.plan.isSome && c.shared.calls.length = 6)
    (by decide +kernel)
  simp only [Bool.and_eq_true, decide_eq_true_eq] at hcalls
  obtain ⟨p, hp⟩ := Option.isSome_iff_exists.mp hcalls.1
  have hbounded := calls_bounded hc
  exact ⟨c, p, hp, hcalls.2, hbounded.1, hbounded.2 p hp⟩

end HorizonRelay
