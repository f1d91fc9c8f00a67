import HorizonRelay.Engine.Calls

/-!
# How the records stay fine

What a step of one task leaves untouched keeps its relations (`JobOk.of_rely`,
`MainOk.congr`); what it changes has to be shown only for itself.  So `Ledger.Ok.jobStep`
asks a worker about its own calls, its own task and the budget, and nothing else.

## Main results

* `CallsOk.withCall`, `CallsOk.putCall` — the budget and the calls.
* `JobOk.of_rely`, `Ledger.Ok.jobStep` — steps of the workers.
-/

namespace HorizonRelay

open Py Coop

variable {x : Setup} {permit : Permit} {l l' : Ledger}

/-! ## Calls and budget -/

/-- The calls the budget counts are the cloud calls. -/
theorem CallsOk.spent (h : CallsOk x permit l) :
    l.budget.calls = l.calls.countP fun c => c.record.tier = .cloud := by
  rw [(CloudBudget.spendAll_eq_ok h.charged).1, Ledger.cloudOps,
    List.length_filterMap_eq_countP, Nat.zero_add]
  refine List.countP_congr fun c _ => ?_
  split <;> simp_all

/-- The worker calls the budget counts are the cloud calls for work. -/
theorem CallsOk.spentWork (h : CallsOk x permit l) :
    l.budget.workerCalls =
      l.calls.countP fun c => c.record.tier = .cloud ∧ c.payload.operation = .work := by
  rw [(CloudBudget.spendAll_eq_ok h.charged).2.1, Ledger.cloudOps, List.count,
    List.countP_filterMap, Nat.zero_add]
  refine List.countP_congr fun c _ => ?_
  split <;> simp_all

theorem CallsOk.within (h : CallsOk x permit l) : l.budget.Within x.limits :=
  (CloudBudget.spendAll_eq_ok h.charged).2.2 (CloudBudget.within_init _)

theorem filterMap_set_of_eq {α β : Type} {f : α → Option β} {as : List α} {k : ℕ} {a a' : α}
    (h : as[k]? = some a) (hf : f a' = f a) : (as.set k a').filterMap f = as.filterMap f := by
  induction as generalizing k with
  | nil => cases h
  | cons b as ih =>
      cases k with
      | zero =>
          cases h
          rw [List.set_cons_zero, List.filterMap_cons, List.filterMap_cons, hf]
      | succ k =>
          rw [List.set_cons_succ, List.filterMap_cons, List.filterMap_cons, ih (by simpa using h)]

theorem CallsOk.withCall (h : CallsOk x permit l) {i : Thread} {tier : Tier} {p : Payload}
    {b : CloudBudget} {c : Call} (hb : charge x tier p.operation l.budget = .ok b)
    (hc : c.MadeBy i tier p) (hp : c.Permitted permit)
    (hi : i = .main ∨ ∃ n, n < l.jobs.length ∧ i = .job n) : CallsOk x permit (l.withCall b c) := by
  have hmem : ∀ d ∈ (l.withCall b c).calls, d ∈ l.calls ∨ d = c := by
    intro d hd
    simpa [Ledger.withCall] using hd
  refine { permitted := ?_, recorded := ?_, charged := ?_, maker := ?_ }
  · intro d hd
    rcases hmem d hd with hd | rfl
    · exact h.permitted d hd
    · exact hp
  · intro d hd
    rcases hmem d hd with hd | rfl
    · exact h.recorded d hd
    · exact hc.recorded
  · unfold charge at hb
    simp only [Ledger.withCall, Ledger.cloudOps, List.filterMap_append, List.filterMap_cons,
      List.filterMap_nil, hc.tier, hc.payload]
    by_cases ht : tier = .cloud
    · rw [if_pos ht] at hb ⊢
      exact CloudBudget.spendAll_concat h.charged hb
    · rw [if_neg ht] at hb ⊢
      cases hb
      rw [List.append_nil]
      exact h.charged
  · intro d hd
    rcases hmem d hd with hd | rfl
    · exact h.maker d hd
    · rw [hc.thread]
      exact hi

theorem CallsOk.putCall (h : CallsOk x permit l) {k : ℕ} {i : Thread} {tier : Tier}
    {p : Payload} {c c' : Call} (hk : l.calls[k]? = some c) (hc : c.MadeBy i tier p)
    (hc' : c'.MadeBy i tier p) (hp : c'.Permitted permit) : CallsOk x permit (l.putCall k c') := by
  have hmem : ∀ d ∈ (l.putCall k c').calls, d ∈ l.calls ∨ d = c' := by
    intro d hd
    exact List.mem_or_eq_of_mem_set hd
  refine { permitted := ?_, recorded := ?_, charged := ?_, maker := ?_ }
  · intro d hd
    rcases hmem d hd with hd | rfl
    · exact h.permitted d hd
    · exact hp
  · intro d hd
    rcases hmem d hd with hd | rfl
    · exact h.recorded d hd
    · exact hc'.recorded
  · refine Eq.trans (congrArg _ (filterMap_set_of_eq hk ?_)) h.charged
    rw [hc.tier, hc'.tier, hc.payload, hc'.payload]
  · intro d hd
    rcases hmem d hd with hd | rfl
    · exact h.maker d hd
    · rw [hc'.thread, ← hc.thread]
      exact h.maker c (List.mem_of_getElem? hk)

/-- The calls and the budget do not depend on the rest. -/
theorem CallsOk.congr (h : CallsOk x permit l) (hc : l'.calls = l.calls)
    (hb : l'.budget = l.budget) (hj : l.jobs.length ≤ l'.jobs.length) : CallsOk x permit l' where
  permitted := hc ▸ h.permitted
  recorded := hc ▸ h.recorded
  charged := by
    rw [hb, ← h.charged, Ledger.cloudOps, hc]
    rfl
  maker c hm := by
    rw [hc] at hm
    rcases h.maker c hm with h | ⟨n, hn, h⟩
    · exact .inl h
    · exact .inr ⟨n, by omega, h⟩

/-! ## Inputs -/

theorem mem_keys_of_grows {r r' : Dict Str Json} (h : Grows r r') {k : Str}
    (hk : k ∈ r.keys) : k ∈ r'.keys := by
  obtain ⟨v, hv⟩ := Dict.mem_keys_iff.mp hk
  exact Dict.mem_keys_iff.mpr ⟨v, h k v hv⟩

theorem resolveRef_of_grows {sources : Dict Str Str} {r r' : Dict Str Json} (h : Grows r r')
    {ref : Str} {v : Json} (hv : resolveRef sources r ref = .ok v) :
    resolveRef sources r' ref = .ok v := by
  unfold resolveRef at hv ⊢
  split at hv
  · rename_i kind key hsplit
    by_cases hk : kind = "sources".toList
    · rw [if_pos hk] at hv ⊢
      exact hv
    · rw [if_neg hk] at hv ⊢
      cases hr : r.get? key with
      | none =>
          rw [hr] at hv
          cases hv
      | some w =>
          rw [hr] at hv
          rw [h key w hr]
          exact hv
  · cases hv

theorem resolveInputs_of_grows {sources : Dict Str Str} {r r' : Dict Str Json}
    (h : Grows r r') {refs : List Str} {start inputs : Inputs}
    (hi : resolveInputs sources r refs start = .ok inputs) :
    resolveInputs sources r' refs start = .ok inputs := by
  induction refs generalizing start with
  | nil => exact hi
  | cons ref refs ih =>
      unfold resolveInputs at hi ⊢
      cases hv : resolveRef sources r ref with
      | error e =>
          rw [hv] at hi
          cases hi
      | ok v =>
          rw [hv] at hi
          rw [resolveRef_of_grows h hv]
          exact ih hi

/-- Resolved inputs stay what they are while results only grow. -/
theorem inputsOf_of_grows (h : Grows l.results l'.results) {task : Task} {inputs : Inputs}
    (hi : l.inputsOf x task = .ok inputs) : l'.inputsOf x task = .ok inputs :=
  resolveInputs_of_grows h hi

/-! ## Workers -/

theorem blames_of_none {i : Thread} {e : Exc} (h : e.call = none) : l.Blames i e := by
  intro k hk
  rw [h] at hk
  cases hk

/-- What a job may rely on keeps the reason it failed for. -/
theorem WorkerError.of_rely {n : ℕ} {job : Job} {e : Exc} (h : WorkerError x l n job e)
    (hr : JobRely n l l') : WorkerError x l' n job e := by
  cases h with
  | cancelled h => exact .cancelled h
  | call hcall hk hc hend hp => exact .call hcall ((hr.calls _ _ hc).mp hk) hc hend hp
  | refused hbudget hcall h hi hrung hall =>
      rw [← hr.calls.mine] at hrung hall
      exact .refused hbudget hcall (h.mono hr.budget) (inputsOf_of_grows hr.grows hi) hrung hall
  | exhausted he hi hlen hall =>
      rw [← hr.calls.mine] at hlen hall
      exact .exhausted he (inputsOf_of_grows hr.grows hi) hlen hall
  | inputs hr' hdeps hmine h =>
      exact .inputs (hr'.trans hr.grows) hdeps (hr.calls.mine.trans hmine) h
  | check hi hlast hend h hcls =>
      rw [← hr.calls.mine] at hlast
      exact .check (inputsOf_of_grows hr.grows hi) hlast hend h hcls

/-- What a job may rely on keeps its relations. -/
theorem JobOk.of_rely {n : ℕ} {job : Job} (h : JobOk x l n job) (hj : l.jobs[n]? = some job)
    (hr : JobRely n l l') : JobOk x l' n job where
  deps d hd := mem_keys_of_grows hr.grows (h.deps d hd)
  ladder := by
    rw [hr.calls.mine]
    rcases h.ladder with h | ⟨inputs, hi, h⟩
    · exact .inl h
    · exact .inr ⟨inputs, inputsOf_of_grows hr.grows hi, h⟩
  accepted v hv := by
    rw [hr.result job hj] at hv
    rw [hr.calls.mine]
    obtain ⟨inputs, c, hi, h⟩ := h.accepted v hv
    exact ⟨inputs, c, inputsOf_of_grows hr.grows hi, h⟩
  returned v hv := by
    rw [hr.result job hj]
    exact h.returned v hv
  failed e he := (h.failed e he).of_rely hr
  unaccepted e he hne := by
    rw [hr.result job hj]
    exact h.unaccepted e he hne

/-- The main flow's relations do not depend on the workers' calls. -/
theorem MainOk.congr (h : MainOk x l) (hm : l'.mine .main = l.mine .main)
    (hv : l'.verdicts = l.verdicts) (hs : l'.skipped = l.skipped) (hr : l'.route = l.route)
    (hf : ∀ t, l.route = some t → t ≠ .cloud → ∀ c ∈ l'.calls, c.record.tier ≠ .cloud) :
    MainOk x l' where
  schedule := hm ▸ h.schedule
  tiers := hm ▸ h.tiers
  fits := hm ▸ h.fits
  distrusted := by
    rw [hm, hv]
    exact h.distrusted
  heard := by
    rw [hm, hv, hr]
    exact h.heard
  judged := by
    rw [hs, hv]
    exact h.judged
  escalates := hv ▸ h.escalates
  trusted := by
    simp only [Ledger.Extracted, hm, hv, hr]
    exact h.trusted
  free := by
    rw [hr]
    exact hf
  cloud := by
    rw [hr, hs, hv]
    exact h.cloud

theorem JobStep.jobs_length {n : ℕ} (h : JobStep n l l') : l'.jobs.length = l.jobs.length := by
  have := congrArg List.length h.tasks
  simpa using this

theorem JobStep.ids {n : ℕ} (h : JobStep n l l') :
    (l'.jobs.map fun job => job.task.id) = l.jobs.map fun job => job.task.id := by
  have := congrArg (List.map Task.id) h.tasks
  simpa [Function.comp_def] using this

/-- The plan of a run in which a job runs. -/
theorem Ledger.Ok.plan_of_running {n : ℕ} (h : l.Ok x permit) (hn : l.running n = true) :
    ∃ p, l.plan = some p ∧ l.route = some .cloud := by
  cases hp : l.plan with
  | none =>
      have hlt := lt_of_running hn
      rw [h.plan.none hp] at hlt
      simp at hlt
  | some p => exact ⟨p, rfl, h.plan.routed p hp⟩

/-- The calls of a worker are work. -/
theorem JobOk.payload {n : ℕ} {job : Job} (h : JobOk x l n job) {c : Call}
    (hc : c ∈ l.mine (.job n)) : ∃ inputs attempt errors,
      c.payload = .work job.task inputs x.goal attempt errors := by
  rcases h.ladder with hnil | ⟨inputs, -, hl⟩
  · rw [hnil] at hc
    cases hc
  · obtain ⟨k, hk⟩ := List.mem_iff_getElem?.mp hc
    exact ⟨inputs, _, _, hl.payload k c hk⟩

/-- A call that is no work is the main flow's. -/
theorem CallsOk.mem_main (h : CallsOk x permit l)
    (hjobs : ∀ (n : ℕ) (job : Job), l.jobs[n]? = some job → JobOk x l n job) {c : Call}
    (hc : c ∈ l.calls) (hp : c.payload.operation ≠ .work) : c ∈ l.mine .main := by
  refine List.mem_filter.mpr ⟨hc, decide_eq_true ?_⟩
  rcases h.maker c hc with hm | ⟨m, hm, ht⟩
  · exact hm
  · obtain ⟨_, _, _, hw⟩ := (hjobs m _ (List.getElem?_eq_getElem hm)).payload
      (List.mem_filter.mpr ⟨hc, by simpa using ht⟩)
    rw [hw] at hp
    exact absurd rfl hp

/-- **A step of a worker.** The records stay fine if the calls and the budget do, and what
holds of its own job. -/
theorem Ledger.Ok.jobStep {n : ℕ} (h : l.Ok x permit) (hs : JobStep n l l')
    (hcalls : CallsOk x permit l')
    (hjob : ∀ job, l'.jobs[n]? = some job → JobOk x l' n job) : l'.Ok x permit := by
  have hjobs : ∀ (m : ℕ) job, l'.jobs[m]? = some job → JobOk x l' m job := by
    intro m job hm
    by_cases hmn : m = n
    · subst hmn
      exact hjob job hm
    · rw [hs.jobs m hmn] at hm
      exact (h.jobs m job hm).of_rely hm (hs.jobRely hmn h.plan.ids)
  obtain ⟨p, hp, hroute⟩ := h.plan_of_running hs.running
  have hmain := (hs.calls .main (by simp)).mine
  have hold : ∀ c ∈ l'.calls, c.payload.operation ≠ .work → c ∈ l.calls := by
    intro c hc hop
    have hc' := hcalls.mem_main hjobs hc hop
    rw [hmain] at hc'
    exact (List.mem_filter.mp hc').1
  refine
    { calls := hcalls
      main := h.main.congr hmain hs.verdicts hs.skipped hs.route ?_
      plan := ?_
      jobs := hjobs
      ended := ?_ }
  · intro t ht hne
    rw [hroute] at ht
    cases ht
    exact absurd rfl hne
  · refine
      { batches := by
          rw [hs.plan, hs.tasks, hs.batches]
          exact h.plan.batches
        none := fun hnone => ?_
        accepted := hs.plan ▸ h.plan.accepted
        routed := fun q hq => hs.route.trans (h.plan.routed q (hs.plan ▸ hq))
        tasks := fun q hq job hj => ?_
        ids := hs.ids ▸ h.plan.ids
        keys := fun hsome k hk => ?_
        extracted := fun hnone => by
          rw [hs.plan, hp] at hnone
          cases hnone
        synthesized := fun c hc goal sources instruction results hpay => ?_
        unanswered := fun hsome c hc hop => ?_ }
    · rw [hs.plan, hp] at hnone
      cases hnone
    · have : job.task ∈ l'.jobs.map Job.task := List.mem_map_of_mem hj
      rw [hs.tasks] at this
      obtain ⟨job₀, hj₀, heq⟩ := List.mem_map.mp this
      rw [← heq]
      exact h.plan.tasks q (hs.plan ▸ hq) job₀ hj₀
    · have hids : k ∈ l'.jobs.map fun job => job.task.id := by
        rw [hs.ids]
        obtain ⟨job, hj, hnone⟩ := exists_of_running hs.running
        by_cases hown : job.task.id = k
        · exact List.mem_map.mpr ⟨job, List.mem_of_getElem? hj, hown⟩
        · have hget := hs.others k fun job' hj' => by
            rw [hj] at hj'
            cases hj'
            exact hown
          have hk' : k ∈ l.results.keys := by
            rw [Dict.mem_keys_iff, ← hget, ← Dict.mem_keys_iff]
            exact hk
          obtain ⟨job', hj', heq⟩ := h.plan.keys (by rw [hp]; rfl) k hk'
          exact List.mem_map.mpr ⟨job', hj', heq⟩
      simpa using hids
    · have hc' := hold c hc (by simp [hpay, Payload.operation])
      obtain ⟨q, hq, hgrow, hall⟩ := h.plan.synthesized c hc' _ _ _ _ hpay
      exact ⟨q, hs.plan.trans hq, hgrow.trans hs.grows, hall⟩
    · exact h.plan.unanswered (hs.plan ▸ hsome) c (hold c hc (by simp [hop])) hop
  · intro o ho
    rw [hs.outcome] at ho
    have := (h.ended o ho).idle n
    rw [hs.running] at this
    cases this

end HorizonRelay
