import HorizonRelay.Engine.Sound

/-!
# The tasks of a plan

What holds of the results, the jobs and the work calls of an accepted plan, in every
reachable state and along every run: however the workers interleave, fail or are cancelled.

## Main definitions

* `TasksSafe` — what holds in a state.
* `CalledInTurn`, `TasksKept` — what a step, and what a run, does to the records.

## Main results

* `tasks_safe` — all of it, for every reachable state with an accepted plan.
-/

namespace HorizonRelay

open Py Coop

variable {x : Setup} {permit : Permit} {l l' : Ledger} {p : Plan}

/-- What holds of the results, the jobs and the calls of a run with plan `p`. -/
structure TasksSafe (x : Setup) (p : Plan) (l : Ledger) : Prop where
  /-- Every result is the value of a call for its task and passed the task's check, on
  inputs resolved from the sources and the results. -/
  valid : ∀ id v, l.results.get? id = some v → ∃ t ∈ p.tasks, t.id = id ∧
    ∃ inputs, resolveInputs x.sources l.results t.inputRefs .empty = .ok inputs ∧
      validateResult t.resultType v inputs = .ok () ∧
      ∃ c ∈ l.calls, c.ended = some (.ok v) ∧
        ∃ n errors, c.payload = .work t inputs x.goal n errors
  closed : ∀ t ∈ p.tasks, t.id ∈ l.results.keys → ∀ d ∈ t.dependsOn, d ∈ l.results.keys
  called : ∀ c ∈ l.calls, ∀ t inputs goal n errors, c.payload = .work t inputs goal n errors →
    t ∈ p.tasks ∧ ∀ d ∈ t.dependsOn, d ∈ l.results.keys
  /-- No dependent of a failed task is called. -/
  failed : ∀ job ∈ l.jobs, ∀ e, job.outcome = some (.error e) → e ≠ cancelledError →
    job.task.id ∉ l.results.keys ∧ ∀ c ∈ l.calls, ∀ t inputs goal n errors,
      c.payload = .work t inputs goal n errors → job.task.id ∉ t.dependsOn
  /-- No two jobs are about one task. -/
  once : (l.jobs.map fun job => job.task.id).Nodup
  tasks : ∀ job ∈ l.jobs, job.task ∈ p.tasks
  /-- The answer is put together only when every task is in the results. -/
  synthesis : ∀ c ∈ l.calls, ∀ goal sources instruction results,
    c.payload = .synthesize goal sources instruction results →
    Grows results l.results ∧ ∀ t ∈ p.tasks, t.id ∈ results.keys

/-- A step makes a work call only for a task that has no result yet and whose dependencies
all have one before the step. -/
def CalledInTurn (l l' : Ledger) : Prop :=
  ∀ (k : ℕ) (c : Call), l.calls.length ≤ k → l'.calls[k]? = some c →
    ∀ t inputs goal n errors, c.payload = .work t inputs goal n errors →
      t.id ∉ l.results.keys ∧ ∀ d ∈ t.dependsOn, d ∈ l.results.keys

/-- What a run of a plan keeps: the plan, the results with their values, the jobs. -/
structure TasksKept (p : Plan) (l l' : Ledger) : Prop where
  plan : l'.plan = some p
  results : Grows l.results l'.results
  jobs : ∃ new, l'.jobs.map Job.task = l.jobs.map Job.task ++ new

/-! ## States -/

/-- A work call is the call of a job for its task. -/
theorem Ledger.Ok.job_of_work (h : l.Ok x permit) {c : Call} (hc : c ∈ l.calls)
    {t : Task} {inputs : Inputs} {goal : Str} {n : ℕ} {errors : List Str}
    (hp : c.payload = .work t inputs goal n errors) :
    ∃ (m : ℕ) (job : Job), l.jobs[m]? = some job ∧ job.task = t ∧ c.thread = .job m := by
  rcases h.calls.maker c hc with hm | ⟨m, hm, ht⟩
  · have := h.main.tiers c (List.mem_filter.mpr ⟨hc, by simpa using hm⟩)
    rw [hp] at this
    cases this
  · have hj := List.getElem?_eq_getElem hm
    obtain ⟨_, _, _, hw⟩ := (h.jobs m _ hj).payload (List.mem_filter.mpr ⟨hc, by simpa using ht⟩)
    rw [hp] at hw
    cases hw
    exact ⟨m, _, hj, rfl, ht⟩

/-- Every other call is the main flow's. -/
theorem Ledger.Ok.mem_main (h : l.Ok x permit) {c : Call} (hc : c ∈ l.calls)
    (hp : c.payload.operation ≠ .work) : c ∈ l.mine .main := h.calls.mem_main h.jobs hc hp

theorem Ledger.Ok.tasksSafe (h : l.Ok x permit) (hp : l.plan = some p) : TasksSafe x p l := by
  obtain ⟨raw, hraw⟩ := h.plan.accepted p hp
  have hacc := accepted_of_checkedPlan hraw
  have hkey : ∀ k ∈ l.results.keys, ∃ (n : ℕ) (job : Job), l.jobs[n]? = some job ∧
      job.task.id = k := by
    intro k hk
    obtain ⟨job, hj, hid⟩ := h.plan.keys (by rw [hp]; rfl) k hk
    obtain ⟨n, hn⟩ := List.mem_iff_getElem?.mp hj
    exact ⟨n, job, hn, hid⟩
  have htask : ∀ {n : ℕ} {job : Job}, l.jobs[n]? = some job → job.task ∈ p.tasks :=
    fun hj => h.plan.tasks p hp _ (List.mem_of_getElem? hj)
  have hcalled : ∀ c ∈ l.calls, ∀ t inputs goal n errors,
      c.payload = .work t inputs goal n errors →
      t ∈ p.tasks ∧ ∀ d ∈ t.dependsOn, d ∈ l.results.keys := by
    intro c hc t inputs goal n errors hpay
    obtain ⟨m, job, hj, rfl, -⟩ := h.job_of_work hc hpay
    exact ⟨htask hj, (h.jobs m job hj).deps⟩
  refine
    { valid := fun id v hv => ?_, closed := fun t ht hk => ?_, called := hcalled
      failed := fun job hj e he hne => ?_, once := h.plan.ids
      tasks := h.plan.tasks p hp, synthesis := fun c hc goal sources ins results hpay => ?_ }
  · obtain ⟨n, job, hj, rfl⟩ := hkey id (Dict.mem_keys_iff.mpr ⟨v, hv⟩)
    have hjob := h.jobs n job hj
    obtain ⟨inputs, c, hin, hvalid, hlast, hend⟩ := hjob.accepted v hv
    have hmem := List.mem_of_getLast? hlast
    refine ⟨job.task, htask hj, rfl, inputs, hin, hvalid, c, (List.mem_filter.mp hmem).1, hend, ?_⟩
    rcases hjob.ladder with hnil | ⟨inputs', hin', hl⟩
    · rw [hnil] at hmem
      cases hmem
    · obtain rfl : inputs' = inputs := Except.ok.inj (hin'.symm.trans hin)
      obtain ⟨k, hk⟩ := List.mem_iff_getElem?.mp hmem
      exact ⟨_, _, hl.payload k c hk⟩
  · obtain ⟨n, job, hj, hid⟩ := hkey t.id hk
    obtain rfl : job.task = t := List.inj_on_of_nodup_map hacc.ids (htask hj) ht hid
    exact (h.jobs n job hj).deps
  · obtain ⟨n, hn⟩ := List.mem_iff_getElem?.mp hj
    have hnone := (h.jobs n job hn).unaccepted e he hne
    have hnot : job.task.id ∉ l.results.keys := by
      intro hk
      obtain ⟨v, hv⟩ := Dict.mem_keys_iff.mp hk
      rw [hnone] at hv
      cases hv
    exact ⟨hnot, fun c hc t inputs goal n errors hpay hd =>
      hnot ((hcalled c hc t inputs goal n errors hpay).2 _ hd)⟩
  · obtain ⟨q, hq, hgrow, hall⟩ := h.plan.synthesized c hc goal sources ins results hpay
    cases hp.symm.trans hq
    exact ⟨hgrow, hall⟩

/-! ## Steps -/

/-- Of two entries of a list that pass a filter, the earlier one is not the last to pass. -/
theorem exists_lt_of_filter {α : Type} {q : α → Bool} {as : List α} {a b : α} {j k : ℕ}
    (hj : as[j]? = some a) (hk : as[k]? = some b) (hjk : j < k) (ha : q a) (hb : q b) :
    ∃ i, (as.filter q)[i]? = some a ∧ i + 1 < (as.filter q).length := by
  have hsplit : as = as.take j ++ a :: as.drop (j + 1) := by
    obtain ⟨hlt, rfl⟩ := List.getElem?_eq_some_iff.mp hj
    rw [← List.drop_eq_getElem_cons hlt, List.take_append_drop]
  have hmem : b ∈ as.drop (j + 1) := by
    rw [List.mem_iff_getElem?]
    exact ⟨k - (j + 1), by rw [List.getElem?_drop, Nat.add_sub_cancel' (by omega), hk]⟩
  have hpos : 0 < ((as.drop (j + 1)).filter q).length :=
    List.length_pos_of_mem (List.mem_filter.mpr ⟨hmem, hb⟩)
  have hfilter : as.filter q = (as.take j).filter q ++ a :: (as.drop (j + 1)).filter q := by
    conv_lhs => rw [hsplit]
    rw [List.filter_append, List.filter_cons_of_pos ha]
  refine ⟨((as.take j).filter q).length, ?_, ?_⟩
  · rw [hfilter, List.getElem?_append_right le_rfl, Nat.sub_self]
    rfl
  · rw [hfilter, List.length_append, List.length_cons]
    omega

/-- A valid value is no failed attempt. -/
theorem failure_of_valid {c : Call} {t : Task} {inputs : Inputs} {v : Json}
    (hv : c.ended = some (.ok v)) (hvalid : validateResult t.resultType v inputs = .ok ()) :
    c.failure t inputs = none := by
  simp [Call.failure, hv, hvalid]

/-- After an accepted result its worker makes no further call: the ladder of a later state
would say that the accepted attempt failed. -/
theorem JobStep.unaccepted {m k : ℕ} {job job' : Job} {c : Call} (hs : JobStep m l l')
    (hjob : JobOk x l m job) (hjob' : JobOk x l' m job') (htask : job'.task = job.task)
    (hlen : l.calls.length ≤ k) (hk : l'.calls[k]? = some c) (ht : c.thread = .job m) :
    job.task.id ∉ l.results.keys := by
  intro hkey
  obtain ⟨v, hv⟩ := Dict.mem_keys_iff.mp hkey
  obtain ⟨inputs, c₀, hin, hvalid, hlast, hend⟩ := hjob.accepted v hv
  obtain ⟨hmem, ht₀⟩ := List.mem_filter.mp (List.mem_of_getLast? hlast)
  obtain ⟨j, hj⟩ := List.mem_iff_getElem?.mp hmem
  obtain ⟨c₁, hc₁, ht₁, -, -, hend₁⟩ := hs.history j c₀ hj
  have hlt := (List.getElem?_eq_some_iff.mp hj).1
  obtain ⟨i, hi, hi'⟩ := exists_lt_of_filter (q := fun c => c.thread = .job m) hc₁ hk (by omega)
    (by rw [ht₁]; exact ht₀) (by simpa using ht)
  rcases hjob'.ladder with hnil | ⟨inputs', hin', hladder⟩
  · change l'.calls.filter _ = [] at hnil
    rw [hnil] at hi
    cases hi
  · have hfail := hladder.failed i c₁ hi hi'
    rw [htask] at hin' hfail
    obtain rfl : inputs' = inputs :=
      Except.ok.inj (hin'.symm.trans (inputsOf_of_grows hs.grows hin))
    rw [failure_of_valid (hend₁ _ hend) hvalid] at hfail
    cases hfail

theorem Guar.calledInTurn {i : Thread} (hg : Guar i l l') (h : l.Ok x permit)
    (h' : l'.Ok x permit) : CalledInTurn l l' := by
  intro k c hlen hk t inputs goal n errors hpay
  obtain ⟨m, job', hj', rfl, ht⟩ := h'.job_of_work (List.mem_of_getElem? hk) hpay
  have hnew : ¬ SameCalls (.job m) l l' := by
    intro hsame
    rw [← hsame k c ht, List.getElem?_eq_none hlen] at hk
    cases hk
  cases i with
  | main => exact absurd (MainStep.calls hg _ (by simp)) hnew
  | follower j =>
      obtain rfl : l' = l := hg
      exact absurd (.refl _ _) hnew
  | job m' =>
      rcases hg with rfl | hs
      · exact absurd (.refl _ _) hnew
      · obtain rfl : m' = m := by
          by_contra hne
          exact hnew (hs.calls (.job m) (by simpa using fun h => hne h.symm))
        obtain ⟨job, hj, -⟩ := exists_of_running hs.running
        have htask := hs.task_eq hj hj'
        have hjob := h.jobs m' job hj
        refine ⟨?_, ?_⟩
        · rw [htask]
          exact hs.unaccepted hjob (h'.jobs m' job' hj') htask hlen hk ht
        · rw [htask]
          exact hjob.deps

/-! ## Runs -/

theorem TasksKept.trans {l'' : Ledger} (h : TasksKept p l l') (h' : TasksKept p l' l'') :
    TasksKept p l l'' where
  plan := h'.plan
  results := h.results.trans h'.results
  jobs := by
    obtain ⟨new, hnew⟩ := h.jobs
    obtain ⟨new', hnew'⟩ := h'.jobs
    exact ⟨new ++ new', by rw [hnew', hnew, List.append_assoc]⟩

theorem Guar.tasksKept {i : Thread} (hg : Guar i l l') (hp : l.plan = some p) :
    TasksKept p l l' := by
  refine ⟨?_, hg.grows, ?_⟩
  · cases i with
    | main => exact MainStep.plan hg p hp
    | follower k =>
        obtain rfl : l' = l := hg
        exact hp
    | job n =>
        rcases hg with rfl | hs
        · exact hp
        · exact hs.plan.trans hp
  · cases i with
    | main =>
        obtain ⟨new, hnew⟩ := MainStep.jobs hg
        exact ⟨new.map Job.task, by rw [hnew, List.map_append]⟩
    | follower k =>
        obtain rfl : l' = l := hg
        exact ⟨[], by simp⟩
    | job n =>
        rcases hg with rfl | hs
        · exact ⟨[], by simp⟩
        · exact ⟨[], by rw [hs.tasks, List.append_nil]⟩

/-- By induction on the steps of a run. -/
theorem Setup.Reachable.tasksKept {c c' : State} {ls : List (Label Thread Choice Move)}
    (h : x.Reachable c) (hp : c.shared.plan = some p) (hs : x.system.steps c ls = some c') :
    TasksKept p c.shared.toLedger c'.shared.toLedger := by
  induction ls generalizing c with
  | nil =>
      cases hs
      exact ⟨hp, .refl _, [], by simp⟩
  | cons label ls ih =>
      obtain ⟨d, hd, hs⟩ := Option.bind_eq_some_iff.mp hs
      obtain ⟨i, hg⟩ := h.guar hd
      have hkept := hg.tasksKept hp
      exact hkept.trans (ih (.step h trivial hd) hkept.plan hs)

/-- **The tasks of a plan.** In every reachable state with an accepted plan the results are
valid and closed under dependencies, work calls and the synthesis come only after what they
need, and no task has two workers; a step calls a task only in turn; and whatever happens
later in the run, the results accepted so far stay as they are. -/
theorem tasks_safe {c : State} (h : x.Reachable c) (hp : c.shared.plan = some p) :
    TasksSafe x p c.shared.toLedger ∧
      (∀ label c', x.system.step c label = some c' →
        CalledInTurn c.shared.toLedger c'.shared.toLedger) ∧
      ∀ labels c', x.system.steps c labels = some c' →
        TasksKept p c.shared.toLedger c'.shared.toLedger := by
  refine ⟨h.ok.tasksSafe hp, fun label c' hs => ?_, fun labels c' hs => h.tasksKept hp hs⟩
  obtain ⟨i, hg⟩ := h.guar hs
  exact hg.calledInTurn h.ok (Setup.Reachable.ok (.step h trivial hs))

theorem tasks_safe_planRun : ∃ (c : State) (p : Plan), c.shared.plan = some p ∧
    c.shared.results.keys = p.tasks.map Task.id ∧ TasksSafe planSetup p c.shared.toLedger := by
  obtain ⟨c, hc, hkeys⟩ := System.exists_reach_of_steps (S := planSetup.system) (s := {}) planRun
    (p := fun c => c.shared.plan.any fun p => c.shared.results.keys = p.tasks.map Task.id)
    (by decide +kernel)
  obtain ⟨p, hp, hkeys⟩ := Option.any_eq_true _ _ |>.mp hkeys
  exact ⟨c, p, hp, by simpa using hkeys, (tasks_safe hc hp).1⟩

end HorizonRelay
