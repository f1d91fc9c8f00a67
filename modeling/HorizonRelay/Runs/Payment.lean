import HorizonRelay.References
import HorizonRelay.Runs.Bounds
import HorizonRelay.Runs.Routing

/-!
# Paying for a plan

Whether an accepted plan can be carried out within the cloud budget, when every work call
succeeds at its first attempt.  Nothing checks it before the work begins: `synthesis_paid`
says exactly which plans get to their synthesis.

## Main definitions

* `passing` — every work call succeeds.
* `Affordable` — the plans the budget has room for.
* `Uninterrupted` — the run was neither cancelled nor out of time.

## Main results

* `synthesis_paid` — the synthesis is called if and only if the plan is affordable.
* `plan_unaffordable` — an accepted plan that is not.
-/

namespace HorizonRelay

open Py Coop

variable {x : Setup} {permit : Permit} {l : Ledger} {p : Plan}

/-- Every work call that ends returns a value that passes its check, unless it is
cancelled. -/
def passing : Permit
  | _, .work task inputs _ _ _, .ok v => validateResult task.resultType v inputs = .ok ()
  | _, .work .., .error e => e = cancelledError
  | _, _, _ => True

instance (tier : Tier) (p : Payload) (r : Except Exc Json) : Decidable (passing tier p r) :=
  match p, r with
  | .work task inputs _ _ _, .ok v =>
      inferInstanceAs (Decidable (validateResult task.resultType v inputs = .ok ()))
  | .work .., .error e => inferInstanceAs (Decidable (e = cancelledError))
  | .attempt .., _ | .solve .., _ | .critique .., _ | .answer .., _ | .plan .., _
  | .synthesize .., _ => isTrue trivial

/-- The planner's calls. -/
def planCalls (l : Ledger) : ℕ := l.calls.countP fun c => c.payload.operation = .plan

/-- The tasks a plan assigns to the cloud. -/
def Plan.cloudTasks (p : Plan) : ℕ := p.tasks.countP fun t => t.preferredTier = .cloud

/-- The budget has room for a plan, and its references can be resolved. -/
structure Affordable (x : Setup) (p : Plan) (l : Ledger) : Prop where
  resolves : ∀ t ∈ p.tasks, ∀ ref ∈ t.inputRefs, '.' ∈ ref
  workers : p.cloudTasks ≤ x.limits.cloudWorkerCalls
  calls : planCalls l + p.cloudTasks + 1 ≤ x.limits.cloudCalls

/-- The run did not end by a cancellation or by its deadline. -/
def Uninterrupted (o : Except Exc RunResult) : Prop :=
  ∀ e, o = .error e → e ≠ cancelledError ∧ e ≠ timeoutError.deadlineExceeded

/-! ## Which calls the cloud gets -/

/-- The calls that put the answer together. -/
def synthCalls (l : Ledger) : ℕ := l.calls.countP fun c => c.payload.operation = .synthesize

/-- The main flow asks the cloud to plan or to answer; the rest is work. -/
theorem Ledger.Ok.cloud_iff (h : l.Ok x permit) {c : Call} (hc : c ∈ l.calls)
    (hop : c.payload.operation ≠ .work) : c.record.tier = .cloud ↔
      c.payload.operation = .answer ∨ c.payload.operation = .plan ∨
        c.payload.operation = .synthesize := by
  have hmain := h.mem_main hc hop
  have htier := h.main.tiers c hmain
  have hslot := h.main.schedule.subset (List.mem_map_of_mem hmain)
  rw [Call.slot] at hslot
  cases hp : c.payload with
  | work task inputs goal attempt errors => exact absurd (by rw [hp]; rfl) hop
  | answer | plan | synthesize =>
      rw [hp] at htier
      simp [← Option.some.inj htier, Payload.operation]
  | attempt goal sources =>
      rw [hp] at htier
      simp [← Option.some.inj htier, Payload.operation]
  | solve task temperature attempt t =>
      rw [hp] at htier hslot
      have hne := ne_cloud_of_mem_locals (mem_locals_of_judge hslot)
      simpa [← Option.some.inj htier, Payload.operation] using hne
  | critique task answer attempt t =>
      rw [hp] at htier hslot
      have hne : x.policy.criticTier t x.tiers ≠ .cloud :=
        ne_cloud_of_mem_locals (RoutingPolicy.criticTier_mem (mem_locals_of_judge hslot))
      simpa [← Option.some.inj htier, Payload.operation] using hne

/-- Counting in three disjoint parts. -/
theorem countP_eq_add {α : Type} {q a b d : α → Bool} {as : List α}
    (h : ∀ e ∈ as, (q e).toNat = (a e).toNat + (b e).toNat + (d e).toNat) :
    as.countP q = as.countP a + as.countP b + as.countP d := by
  induction as with
  | nil => rfl
  | cons e as ih =>
      rw [List.forall_mem_cons] at h
      have hcons : ∀ r : α → Bool, (e :: as).countP r = as.countP r + (r e).toNat := by
        intro r
        cases hr : r e <;> simp [hr]
      rw [hcons, hcons, hcons, hcons, ih h.2, h.1]
      omega

/-- With a plan the budget pays for planning, work and the synthesis. -/
theorem Ledger.Ok.calls_eq (h : l.Ok x permit) (hp : l.plan.isSome) :
    l.budget.calls = planCalls l + l.budget.workerCalls + synthCalls l := by
  rw [h.calls.spent, h.calls.spentWork, planCalls, synthCalls]
  refine countP_eq_add fun c hc => ?_
  have hanswer := h.plan.unanswered hp c hc
  by_cases hop : c.payload.operation = .work
  · simp [hop]
  · have hcloud := h.cloud_iff hc hop
    by_cases hplan : c.payload.operation = .plan
    · simp [hcloud, hplan]
    · by_cases hsyn : c.payload.operation = .synthesize
      · simp [hcloud, hsyn]
      · have hlocal : c.record.tier ≠ .cloud := fun ht => by
          rcases hcloud.mp ht with h | h | h
          · exact hanswer h
          · exact hplan h
          · exact hsyn h
        simp [hlocal, hplan, hsyn]

/-! ## Work that passes -/

theorem failure_of_passing {task : Task} {inputs : Inputs} {goal : Str} {n : ℕ} {errors : List Str}
    {c : Call} (hperm : c.Permitted passing) (hp : c.payload = .work task inputs goal n errors) :
    c.failure task inputs = none := by
  unfold Call.failure
  cases hend : c.ended with
  | none => rfl
  | some r =>
      have hr := hperm r hend
      rw [hp] at hr
      cases r with
      | error e =>
          obtain rfl : e = cancelledError := hr
          rfl
      | ok v =>
          have hv : validateResult task.resultType v inputs = .ok () := hr
          simp only [hv]

theorem head_workerTiers (q : RoutingPolicy) (task : Task) (tiers : List Tier) :
    (q.workerTiers task tiers)[0]? = some task.preferredTier := by
  unfold RoutingPolicy.workerTiers
  split
  · rename_i h
    rw [h]
    rfl
  · obtain ⟨k, hk⟩ := Nat.exists_eq_add_of_le' q.localWorkerAttempts_pos
    rw [hk, List.replicate_succ]
    rfl

/-- A worker makes one call at most, on the tier the plan names. -/
theorem Ledger.Ok.mine_of_passing (h : l.Ok x passing) {n : ℕ} {job : Job}
    (hj : l.jobs[n]? = some job) : l.mine (.job n) = [] ∨
      ∃ c, l.mine (.job n) = [c] ∧ c.record.tier = job.task.preferredTier ∧
        c.payload.operation = .work := by
  rcases (h.jobs n job hj).ladder with hnil | ⟨inputs, -, hladder⟩
  · exact .inl hnil
  · cases hmine : l.mine (.job n) with
    | nil => exact .inl rfl
    | cons c cs =>
        have hc : (l.mine (.job n))[0]? = some c := by rw [hmine]; rfl
        have hpay := hladder.payload 0 c hc
        have htier := hladder.tier 0 c hc
        rw [head_workerTiers] at htier
        have hmem : c ∈ l.calls := by
          have hm : c ∈ l.mine (.job n) := by simp [hmine]
          exact (List.mem_filter.mp hm).1
        cases cs with
        | nil => exact .inr ⟨c, rfl, (Option.some.inj htier).symm, by rw [hpay]; rfl⟩
        | cons d cs =>
            -- a second call would follow a failed one
            have hfail := hladder.failed 0 c hc (by rw [hmine]; simp)
            rw [failure_of_passing (h.calls.permitted c hmem) hpay] at hfail
            cases hfail

/-- Whether the job has made a call on the cloud. -/
def Ledger.paysFor (l : Ledger) (n : ℕ) : Bool :=
  !(l.mine (.job n)).isEmpty && (l.jobs[n]?).any fun job => job.task.preferredTier = .cloud

/-- The worker calls the budget counts are those of the jobs that made one. -/
theorem Ledger.Ok.workerCalls_eq (h : l.Ok x passing) :
    l.budget.workerCalls = ((Finset.range l.jobs.length).filter fun n => l.paysFor n).card := by
  have hmain : (l.mine .main).countP
      (fun c => c.record.tier = .cloud ∧ c.payload.operation = .work) = 0 := by
    rw [List.countP_eq_zero]
    intro c hc hwork
    have htier := h.main.tiers c hc
    have hop : c.payload.operation = .work := (of_decide_eq_true hwork).2
    cases hp : c.payload with
    | work task inputs goal attempt errors =>
        rw [hp] at htier
        cases htier
    | _ =>
        rw [hp] at hop
        cases hop
  rw [h.calls.spentWork, countP_calls h.calls, hmain, Nat.zero_add, Finset.card_filter]
  refine Finset.sum_congr rfl fun n hn => ?_
  have hj := List.getElem?_eq_getElem (Finset.mem_range.mp hn)
  rcases h.mine_of_passing hj with hnil | ⟨c, hc, htier, hop⟩
  · simp [hnil, Ledger.paysFor]
  · simp only [hc, Ledger.paysFor, hj, List.countP_singleton, htier, hop, and_true,
      List.isEmpty_cons, Bool.not_false, Bool.true_and, Option.any_some]

/-- Counting entries of a list is counting their places. -/
theorem countP_eq_card {α : Type} (as : List α) (q : α → Bool) :
    as.countP q = ((Finset.range as.length).filter fun n => (as[n]?).any q).card := by
  induction as using List.reverseRecOn with
  | nil => rfl
  | append_singleton as a ih =>
      have hold : (Finset.range as.length).filter (fun n => ((as ++ [a])[n]?).any q) =
          (Finset.range as.length).filter fun n => (as[n]?).any q := by
        refine Finset.filter_congr fun n hn => ?_
        rw [List.getElem?_append_left (Finset.mem_range.mp hn)]
      rw [List.countP_append, List.length_append, List.length_singleton, Finset.range_add_one,
        Finset.filter_insert, hold, ih]
      have hnot : as.length ∉ (Finset.range as.length).filter fun n => (as[n]?).any q := by
        simp
      cases hq : q a with
      | true => simp [hq]
      | false => simp [hq]

/-- The jobs whose task is for the cloud. -/
def cloudJobs (l : Ledger) : ℕ := l.jobs.countP fun job => job.task.preferredTier = .cloud

theorem Ledger.Ok.cloudJobs_le (h : l.Ok x permit) (hp : l.plan = some p) :
    cloudJobs l ≤ p.cloudTasks := by
  have hnodup : (l.jobs.map Job.task).Nodup :=
    List.Nodup.of_map Task.id (by rw [List.map_map]; exact h.plan.ids)
  have hsub : l.jobs.map Job.task ⊆ p.tasks := by
    intro t ht
    obtain ⟨job, hj, rfl⟩ := List.mem_map.mp ht
    exact h.plan.tasks p hp job hj
  have hle := (List.subperm_of_subset hnodup hsub).countP_le fun t => t.preferredTier = .cloud
  rwa [List.countP_map] at hle

theorem Ledger.Ok.workerCalls_le (h : l.Ok x passing) : l.budget.workerCalls ≤ cloudJobs l := by
  rw [h.workerCalls_eq, cloudJobs, countP_eq_card]
  refine Finset.card_le_card fun n hn => ?_
  rw [Finset.mem_filter, Ledger.paysFor, Bool.and_eq_true] at hn
  exact Finset.mem_filter.mpr ⟨hn.1, hn.2.2⟩

/-- A job for the cloud that has made no call is not paid for yet. -/
theorem Ledger.Ok.workerCalls_lt (h : l.Ok x passing) {n : ℕ} {job : Job}
    (hj : l.jobs[n]? = some job) (hcloud : job.task.preferredTier = .cloud)
    (hmine : l.mine (.job n) = []) : l.budget.workerCalls < cloudJobs l := by
  rw [h.workerCalls_eq, cloudJobs, countP_eq_card]
  refine Finset.card_lt_card ⟨fun m hm => ?_, fun hsub => ?_⟩
  · rw [Finset.mem_filter, Ledger.paysFor, Bool.and_eq_true] at hm
    exact Finset.mem_filter.mpr ⟨hm.1, hm.2.2⟩
  · have hn : n ∈ Finset.range l.jobs.length :=
      Finset.mem_range.mpr (List.getElem?_eq_some_iff.mp hj).1
    have hmem := hsub (Finset.mem_filter.mpr ⟨hn, by simp [hj, hcloud]⟩)
    simp [Ledger.paysFor, hmine] at hmem

/-- Once every task has a job that made a call, every cloud task is paid for. -/
theorem Ledger.Ok.workerCalls_of_done (h : l.Ok x passing) (hp : l.plan = some p)
    (hdone : ∀ t ∈ p.tasks, t.id ∈ l.results.keys) :
    l.budget.workerCalls = p.cloudTasks ∧ ∀ t ∈ p.tasks, ∃ inputs, l.inputsOf x t = .ok inputs := by
  obtain ⟨raw, hraw⟩ := h.plan.accepted p hp
  have hacc := accepted_of_checkedPlan hraw
  have hsome : l.plan.isSome := by rw [hp]; rfl
  have hjob : ∀ t ∈ p.tasks, ∃ (n : ℕ) (job : Job), l.jobs[n]? = some job ∧ job.task = t ∧
      (∃ inputs, l.inputsOf x t = .ok inputs) ∧ l.mine (.job n) ≠ [] := by
    intro t ht
    obtain ⟨job, hj, hid⟩ := h.plan.keys hsome t.id (hdone t ht)
    obtain rfl : job.task = t :=
      List.inj_on_of_nodup_map hacc.ids (h.plan.tasks p hp job hj) ht hid
    obtain ⟨n, hn⟩ := List.mem_iff_getElem?.mp hj
    obtain ⟨v, hv⟩ := Dict.mem_keys_iff.mp (hdone job.task ht)
    obtain ⟨inputs, c, hi, -, hlast, -⟩ := (h.jobs n job hn).accepted v hv
    refine ⟨n, job, hn, rfl, ⟨inputs, hi⟩, fun hnil => ?_⟩
    rw [hnil] at hlast
    cases hlast
  refine ⟨?_, fun t ht => ?_⟩
  · have hperm : (l.jobs.map Job.task).Perm p.tasks := by
      have hnodup : (l.jobs.map Job.task).Nodup :=
        List.Nodup.of_map Task.id (by rw [List.map_map]; exact h.plan.ids)
      refine (List.perm_ext_iff_of_nodup hnodup (List.Nodup.of_map _ hacc.ids)).mpr fun t => ?_
      constructor
      · intro ht
        obtain ⟨job, hj, rfl⟩ := List.mem_map.mp ht
        exact h.plan.tasks p hp job hj
      · intro ht
        obtain ⟨n, job, hj, rfl, -⟩ := hjob t ht
        exact List.mem_map_of_mem (List.mem_of_getElem? hj)
    have hcount := hperm.countP_eq fun t => t.preferredTier = .cloud
    rw [List.countP_map] at hcount
    rw [Plan.cloudTasks, ← hcount, h.workerCalls_eq, countP_eq_card]
    refine congrArg Finset.card (Finset.filter_congr fun n hn => ?_)
    have hj := List.getElem?_eq_getElem (Finset.mem_range.mp hn)
    obtain ⟨m, job, hm, htask, -, hmine⟩ := hjob _ (h.plan.tasks p hp _ (List.mem_of_getElem? hj))
    have hmn : m = n := eq_of_task_id h.plan.ids hm hj (by rw [htask])
    subst hmn
    simp [Ledger.paysFor, hj, hmine]
  · obtain ⟨_, _, _, _, hi, _⟩ := hjob t ht
    exact hi

/-! ## Runs -/

/-- The synthesis is asked for when every task is done. -/
theorem Ledger.Ok.done_of_synthesized (h : l.Ok x permit) (hp : l.plan = some p)
    (hsyn : ∃ c ∈ l.calls, c.payload.operation = .synthesize) :
    ∀ t ∈ p.tasks, t.id ∈ l.results.keys := by
  obtain ⟨c, hc, hop⟩ := hsyn
  cases hpay : c.payload with
  | synthesize goal sources instruction results =>
      obtain ⟨q, hq, hgrows, hkeys⟩ := h.plan.synthesized c hc _ _ _ _ hpay
      obtain rfl : p = q := Option.some.inj (hp.symm.trans hq)
      intro t ht
      obtain ⟨v, hv⟩ := Dict.mem_keys_iff.mp (hkeys t ht)
      exact Dict.mem_keys_iff.mpr ⟨v, hgrows t.id v hv⟩
  | _ =>
      rw [hpay] at hop
      cases hop

/-- The calls of a job are about its task, with the inputs it has now. -/
theorem JobOk.payload_of {n : ℕ} {job : Job} (h : JobOk x l n job) {inputs : Inputs}
    (hi : l.inputsOf x job.task = .ok inputs) {c : Call} (hc : c ∈ l.mine (.job n)) :
    ∃ attempt errors, c.payload = .work job.task inputs x.goal attempt errors := by
  rcases h.ladder with hnil | ⟨inputs', hi', hladder⟩
  · rw [hnil] at hc
    cases hc
  · obtain rfl : inputs = inputs' := Except.ok.inj (hi.symm.trans hi')
    obtain ⟨k, hk⟩ := List.mem_iff_getElem?.mp hc
    exact ⟨_, _, hladder.payload k c hk⟩

/-- A synthesis is paid for like everything before it. -/
theorem Ledger.Ok.affordable (h : l.Ok x passing) (hp : l.plan = some p)
    (hsyn : ∃ c ∈ l.calls, c.payload.operation = .synthesize) : Affordable x p l := by
  obtain ⟨hwork, hinputs⟩ := h.workerCalls_of_done hp (h.done_of_synthesized hp hsyn)
  have hcalls := h.calls_eq (by rw [hp]; rfl)
  have hwithin := h.calls.within
  have hone : 0 < synthCalls l := by
    obtain ⟨c, hc, hop⟩ := hsyn
    exact List.countP_pos_iff.mpr ⟨c, hc, by simpa using hop⟩
  obtain ⟨raw, hraw⟩ := h.plan.accepted p hp
  refine ⟨fun t ht ref href => ?_, ?_, ?_⟩
  · obtain ⟨v, hv⟩ := (resolveInputs_ok_iff _).mp (hinputs t ht) ref href
    exact ((resolveRef_eq_ok_iff ((accepted_of_checkedPlan hraw).refs t ht ref href)).mp hv).2
  · have := hwithin.workerCalls
    omega
  · have := hwithin.calls
    omega

/-- Where the plan is affordable no worker fails by itself. -/
theorem Ledger.Ok.worker_cancelled (h : l.Ok x passing) (he' : x.limits.cloudEnabled = true)
    (hp : l.plan = some p) (ha : Affordable x p l) {n : ℕ} {job : Job}
    (hj : l.jobs[n]? = some job) {e : Exc}
    (he : job.outcome = some (.error e)) : e = cancelledError := by
  obtain ⟨raw, hraw⟩ := h.plan.accepted p hp
  have ht := h.plan.tasks p hp job (List.mem_of_getElem? hj)
  have hnone : ∀ inputs, l.inputsOf x job.task = .ok inputs → ∀ c ∈ l.mine (.job n),
      (c.failure job.task inputs).isSome → False := by
    intro inputs hi c hc hfail
    obtain ⟨attempt, errors, hpay⟩ := (h.jobs n job hj).payload_of hi hc
    rw [failure_of_passing (h.calls.permitted c (List.mem_filter.mp hc).1) hpay] at hfail
    cases hfail
  cases (h.jobs n job hj).failed e he with
  | cancelled h => exact h
  | @call k c hcall hk hc hend hp =>
      have hmem : c ∈ l.mine (.job n) :=
        List.mem_filter.mpr ⟨List.mem_of_getElem? hk, decide_eq_true hc⟩
      obtain ⟨inputs, attempt, errors, hpay⟩ := (h.jobs n job hj).payload hmem
      have hperm := h.calls.permitted c (List.mem_of_getElem? hk) _ hend
      rw [hpay] at hperm
      exact hperm
  | @refused inputs hbudget hcall hrefuses hi hrung hall =>
      exfalso
      have hmine : l.mine (.job n) = [] := by
        cases hm : l.mine (.job n) with
        | nil => rfl
        | cons c cs =>
            have hc : c ∈ l.mine (.job n) := by simp [hm]
            exact (hnone inputs hi c hc (hall c hc)).elim
      rw [hmine, List.length_nil, head_workerTiers] at hrung
      have hlt := h.workerCalls_lt hj (Option.some.inj hrung) hmine
      have hle := h.cloudJobs_le hp
      have hcalls := h.calls_eq (by rw [hp]; rfl)
      have hsyn : synthCalls l = 0 := by
        rw [synthCalls, List.countP_eq_zero]
        intro c hc hop
        have hdone := h.done_of_synthesized hp ⟨c, hc, of_decide_eq_true hop⟩
        have := (h.workerCalls_of_done hp hdone).1
        omega
      have hworkers := ha.workers
      have hroom := ha.calls
      rw [CloudBudget.refuses_iff, he'] at hrefuses
      rcases hrefuses with h | h | ⟨-, h⟩
      · cases h
      · simp [Operation.final] at h
        omega
      · omega
  | exhausted _ hi hlen hall =>
      exfalso
      have hpos : 0 < (l.mine (.job n)).length := by
        rw [hlen]
        exact List.length_pos_of_mem (List.mem_of_getElem? (head_workerTiers _ job.task _))
      obtain ⟨c, hc⟩ := List.exists_mem_of_length_pos hpos
      exact hnone _ hi c hc (hall c hc)
  | inputs _ hdeps _ hfail =>
      exfalso
      obtain ⟨inputs, hi⟩ := (resolveInputs_ok_iff .empty).mpr fun ref href =>
        (resolveRef_ok_iff ((accepted_of_checkedPlan hraw).refs _ ht ref href) hdeps).mpr
          (ha.resolves _ ht ref href)
      rw [hfail] at hi
      cases hi
  | check hi hlast hend hfail _ =>
      exfalso
      have hmem := List.mem_of_getLast? hlast
      obtain ⟨attempt, errors, hpay⟩ := (h.jobs n job hj).payload_of hi hmem
      have hperm := h.calls.permitted _ (List.mem_filter.mp hmem).1 _ hend
      rw [hpay] at hperm
      have hok : validateResult job.task.resultType _ _ = .ok () := hperm
      rw [hok] at hfail
      cases hfail

theorem reported_cancelled : Exc.reported cancelledError = cancelledError := rfl

theorem reported_timeout : Exc.reported timeoutError = timeoutError.deadlineExceeded := rfl

/-- **What an accepted plan costs.** When every work call succeeds at its first attempt, a run
that is not interrupted asks for the synthesis of an accepted plan exactly when the budget had
room for the planner's calls, the plan's cloud tasks and the synthesis together. -/
theorem synthesis_paid {c : State} (h : x.system.Reach {} (Admits passing) c)
    (he : x.limits.cloudEnabled = true) (hp : c.shared.plan = some p)
    {o : Except Exc RunResult} (ho : c.shared.outcome = some o) (hu : Uninterrupted o) :
    (∃ d ∈ c.shared.calls, d.payload.operation = .synthesize) ↔
      Affordable x p c.shared.toLedger := by
  have hok := ok_of_reach h
  have hsome : c.shared.plan.isSome := by rw [hp]; rfl
  refine ⟨hok.affordable hp, fun ha => ?_⟩
  cases o with
  | ok r => exact ((hok.ended _ ho).answered r rfl).synthesized hsome
  | error e =>
      obtain ⟨hcancel, htime⟩ := hu e rfl
      rcases (hok.ended _ ho).planned e rfl hsome with h | ⟨e₀, rfl, rfl | hplan⟩
      · exact absurd h hcancel
      · exact absurd reported_timeout htime
      · cases hplan with
        | cancelled h =>
            rw [h] at hcancel
            exact absurd reported_cancelled hcancel
        | worker hj hout =>
            rw [hok.worker_cancelled he hp ha hj hout] at hcancel
            exact absurd reported_cancelled hcancel
        | refused _ hrefuses =>
            -- what was spent leaves room for the synthesis, unless it was made
            by_contra hnone
            have hcalls := hok.calls_eq hsome
            have hwork := (hok.workerCalls_le).trans (hok.cloudJobs_le hp)
            have hsyn : synthCalls c.shared.toLedger = 0 := by
              rw [synthCalls, List.countP_eq_zero]
              exact fun d hd hop => hnone ⟨d, hd, of_decide_eq_true hop⟩
            have hroom := ha.calls
            rw [CloudBudget.refuses_iff, he] at hrefuses
            rcases hrefuses with h | h | ⟨h, -⟩
            · cases h
            · simp [Operation.final] at h
              omega
            · cases h
        | synthesized hc hop => exact ⟨_, hc, hop⟩

/-- A plan of one task for the cloud, carried out. -/
def cloudRun : List (Label Thread Choice Move) :=
  planned [taskRow "one" "cloud" []] ++
    [.resume (.job 0) .go, .resume (.job 0) (replyWith (workValue "5")), .resume .main .go,
      .resume .main .go, .resume .main (replyWith (.str "done".toList))]

theorem synthesis_paid_cloudRun : ∃ (c : State) (p : Plan), c.shared.plan = some p ∧
    p.cloudTasks = 1 ∧ Affordable planSetup p c.shared.toLedger := by
  obtain ⟨c, hc, h⟩ := exists_reach_of_admitted (x := planSetup) passing cloudRun
    (p := fun c => c.shared.plan.any (fun p => p.cloudTasks = 1) &&
      (c.shared.calls.any fun d => d.payload.operation = .synthesize) &&
        c.shared.toLedger.returned fun _ => true)
    (by decide +kernel)
  simp only [Bool.and_eq_true] at h
  obtain ⟨⟨hplan, hsyn⟩, hret⟩ := h
  obtain ⟨p, hp, hone⟩ := Option.any_eq_true _ _ |>.mp hplan
  obtain ⟨d, hd, hop⟩ := List.any_eq_true.mp hsyn
  obtain ⟨r, hr, -⟩ := Ledger.exists_of_returned hret
  exact ⟨c, p, hp, of_decide_eq_true hone,
    (synthesis_paid hc (by decide) hp hr nofun).mp ⟨d, hd, of_decide_eq_true hop⟩⟩

/-- No worker call is left for the plan's cloud task. -/
def workerless : Setup :=
  { planSetup with limits := { planSetup.limits with cloudWorkerCalls := 0 } }

/-- A plan the budget has no room for is accepted; its run ends with a `BudgetError`. -/
theorem plan_unaffordable : ∃ (c : State) (p : Plan) (e : Exc),
    workerless.system.Reach {} (Admits passing) c ∧ c.shared.plan = some p ∧
      c.shared.outcome = some (.error e) ∧ e.cls = .budget ∧
        ¬ Affordable workerless p c.shared.toLedger := by
  obtain ⟨c, hc, h⟩ := exists_reach_of_admitted (x := workerless) passing
    (planned [taskRow "one" "cloud" []] ++
      [.resume (.job 0) .go, .resume .main .go, .resume .main .go])
    (p := fun c => c.shared.plan.any (fun p => p.cloudTasks = 1) &&
      c.shared.toLedger.failed fun e => e.cls = .budget)
    (by decide +kernel)
  obtain ⟨hplan, hfail⟩ := Bool.and_eq_true _ _ ▸ h
  obtain ⟨p, hp, hone⟩ := Option.any_eq_true _ _ |>.mp hplan
  obtain ⟨e, he, hcls⟩ := Ledger.exists_of_failed hfail
  refine ⟨c, p, e, hc, hp, he, of_decide_eq_true hcls, fun ha => ?_⟩
  have hworkers := ha.workers
  rw [of_decide_eq_true hone] at hworkers
  exact absurd hworkers (by decide)

end HorizonRelay
