import HorizonRelay.Engine.Cascade
import HorizonRelay.Engine.Worker

/-!
# Plan mode

The cloud plans, the workers work, the cloud assembles the results.  Until a plan is
accepted the main flow is alone (`InCloud`); then each batch creates a job for every task
that can be run and ends when all of them have (`Scheduled`, `Working`).

## Main definitions

* `InCloud` — the cloud has taken over, and there is no plan yet.
* `Scheduled` — between two batches of an accepted plan.
* `Working` — inside a batch.

## Main results

* `wp_makePlan` — the planner's attempts.
* `wp_batch`, `wp_runTasks` — every task of the plan is in the results, or an error stops
  the run when all jobs have ended.
-/

namespace HorizonRelay

open Py Coop

variable {x : Setup} {permit : Permit} {l l' : Ledger} {pre : List Slot}

/-! ## The cloud alone -/

/-- The cloud has taken over, its calls are among the slots `pre`, and there is no plan. -/
structure InCloud (x : Setup) (permit : Permit) (pre : List Slot) (l : Ledger) : Prop where
  ok : l.Ok x permit
  jobs : l.jobs = []
  plan : l.plan = none
  route : l.route = some .cloud
  outcome : l.outcome = none
  results : l.results = .empty
  slots : ((l.mine .main).map Call.slot).Sublist pre

theorem InCloud.idle (h : InCloud x permit pre l) : Idle l := idle_of_jobs_nil h.jobs

theorem InCloud.mono (h : InCloud x permit pre l) {pre' : List Slot} (hpre : pre.Sublist pre') :
    InCloud x permit pre' l :=
  { h with slots := h.slots.trans hpre }

theorem InCloud.stopped (h : InCloud x permit pre l) {e : Exc} (he : ∃ i, l.Blames i e) :
    Stopped x permit e l where
  ok := h.ok
  idle := h.idle
  outcome := h.outcome
  blames _ := he
  planned hp := by
    rw [h.plan] at hp
    cases hp

/-- When every local tier was skipped or judged in vain, the cloud takes over. -/
theorem Undecided.inCloud (h : Undecided x permit pre (l.verdicts.map Verdict.tier) l)
    (hd : l.judgedTiers = x.locals) :
    InCloud x permit pre { l with route := some .cloud } where
  ok := by
    refine h.ok.withMain h.outcome h.plan rfl ?_
    exact
      { schedule := h.ok.main.schedule, tiers := h.ok.main.tiers, fits := h.ok.main.fits
        distrusted := h.ok.main.distrusted, heard := fun _ => h.about
        judged := h.ok.main.judged
        escalates := h.ok.main.escalates
        trusted := fun t ht hne => absurd (Option.some.inj ht).symm hne
        free := fun t ht hne => absurd (Option.some.inj ht).symm hne
        cloud := fun _ => ⟨hd, h.escalated⟩ }
  jobs := h.jobs
  plan := h.plan
  route := rfl
  outcome := h.outcome
  results := h.results
  slots := h.slots

/-- A call on the cloud that is no synthesis. -/
theorem InCloud.mainCall (h : InCloud x permit pre l) {p : Payload}
    (hslot : (pre ++ [p.slot]).Sublist x.schedule) (htier : x.tierOf p = some .cloud)
    (hfit : x.FitsMode p) (hfor : p.forTier = none) (hsyn : p.operation ≠ .synthesize) :
    MainCall x .cloud p l where
  slot := (h.slots.append (.refl _)).trans hslot
  onTier := htier
  fits := hfit
  unjudged t ht := by
    rw [hfor] at ht
    cases ht
  unrouted t ht := by
    rw [hfor] at ht
    cases ht
  free t ht hne := by
    rw [h.route] at ht
    exact absurd (Option.some.inj ht).symm hne
  synthesis := by
    rintro _ _ _ _ rfl
    exact absurd rfl hsyn
  unplanned _ := h.plan

/-- The records after such a call. -/
theorem InCloud.withCall (h : InCloud x permit pre l) {p : Payload}
    (hm : MainCall x .cloud p l) {b : CloudBudget} {c : Call}
    (hb : charge x .cloud p.operation l.budget = .ok b) (hc : c.MadeBy .main .cloud p)
    (hp : c.Permitted permit) : InCloud x permit (pre ++ [p.slot]) (l.withCall b c) where
  ok := h.ok.withMainCall h.outcome hm hb hc hp
  jobs := h.jobs
  plan := h.plan
  route := h.route
  outcome := h.outcome
  results := h.results
  slots := by
    have hslot : c.slot = p.slot := congrArg Payload.slot hc.payload
    rw [mine_withCall_main hc.thread, List.map_append, List.map_singleton, hslot]
    exact h.slots.append (.refl _)

/-- A call on the cloud before there is a plan. -/
theorem wp_call_inCloud {p : Payload} {s : Run} {Q : Except Exc Json → Run → Prop}
    (h : InCloud x permit pre s.toLedger) (hslot : (pre ++ [p.slot]).Sublist x.schedule)
    (htier : x.tierOf p = some .cloud) (hfit : x.FitsMode p) (hfor : p.forTier = none)
    (hsyn : p.operation ≠ .synthesize) (hlets : ∀ e, p.letsThrough e)
    (ok : ∀ v s', InCloud x permit (pre ++ [p.slot]) s'.toLedger → Q (.ok v) s')
    (error : ∀ e s', Stopped x permit e s'.toLedger → Q (.error e) s') :
    (call x .main .cloud p).wp (terms x permit .main) Q s := by
  have hm := h.mainCall hslot htier hfit hfor hsyn
  refine wp_call_idle h.idle (fun b c hb hc hp => (h.withCall hm hb hc hp).ok) (fun e he => ?_)
    fun b c r s' hb hc hp hend hl => ?_
  · exact error e s (h.stopped (blames_fresh (charge_eq_error he).2.1))
  · have h' := h.withCall hm hb hc hp
    rw [← hl] at h'
    cases r with
    | ok v => exact ok v s' h'
    | error e =>
        refine error e s' (h'.stopped ?_)
        rw [hl]
        exact blames_of_ended hc hend (.inl (hlets e))

/-! ## The planner -/

/-- The slots of plan mode up to the planner's `k`th attempt. -/
def Setup.planSlots (x : Setup) (k : ℕ) : List Slot :=
  x.localSlots ++ (List.range' 1 k).map Slot.plan

theorem planSlots_succ (k : ℕ) : x.planSlots (k + 1) = x.planSlots k ++ [.plan (k + 1)] := by
  rw [Setup.planSlots, Setup.planSlots, List.range'_concat, List.map_append, List.map_singleton,
    Nat.one_mul, Nat.add_comm 1 k, List.append_assoc]

theorem planSlots_mono {k k' : ℕ} (hk : k ≤ k') :
    (x.planSlots k).Sublist (x.planSlots k') := by
  refine (List.Sublist.refl _).append (List.Sublist.map _ ?_)
  rw [← Nat.add_sub_cancel' hk, ← List.range'_append_1]
  exact List.sublist_append_left _ _

theorem planSlots_synthesize_sublist :
    (x.planSlots x.policy.planAttempts ++ [Slot.synthesize]).Sublist x.schedule := by
  rw [Setup.planSlots, Setup.schedule, Setup.cloudSlots, List.append_assoc]
  exact (List.Sublist.refl _).append (List.sublist_cons_self _ _)

theorem planSlots_sublist {k : ℕ} (hk : k ≤ x.policy.planAttempts) :
    (x.planSlots k).Sublist x.schedule := by
  exact ((planSlots_mono hk).trans (List.sublist_append_left _ _)).trans
    planSlots_synthesize_sublist

/-- Plan mode has no answer of the cloud's own, and the planner no synthesis. -/
theorem not_mem_planSlots (k : ℕ) :
    Slot.synthesize ∉ x.planSlots k ∧ Slot.answer ∉ x.planSlots k := by
  simp only [Setup.planSlots, Setup.localSlots, List.mem_append, List.mem_map, List.mem_flatMap,
    Setup.judgeSlots, not_or, not_exists, not_and, reduceCtorEq, not_false_eq_true, implies_true,
    and_true]
  split <;> simp

/-- Before there is a plan all calls are the main flow's. -/
theorem InCloud.mem_mine (h : InCloud x permit pre l) {c : Call} (hc : c ∈ l.calls) :
    c ∈ l.mine .main := by
  refine List.mem_filter.mpr ⟨hc, ?_⟩
  rcases h.ok.calls.maker c hc with hm | ⟨n, hn, -⟩
  · simpa using hm
  · rw [h.jobs] at hn
    simp at hn

/-! ## Between two batches -/

/-- An accepted plan of which the tasks `pending` have not been run. -/
structure Scheduled (x : Setup) (permit : Permit) (p : Plan) (pending : List Task) (l : Ledger) :
    Prop where
  ok : l.Ok x permit
  idle : Idle l
  outcome : l.outcome = none
  plan : l.plan = some p
  slots : ((l.mine .main).map Call.slot).Sublist (x.planSlots x.policy.planAttempts)
  within : pending.Sublist p.tasks
  done : ∀ t ∈ p.tasks, t ∉ pending → t.id ∈ l.results.keys
  fresh : ∀ t ∈ pending, ∀ job ∈ l.jobs, job.task.id ≠ t.id
  /-- The tasks left are those that more batches than so far are needed for. -/
  left : ∀ t ∈ p.tasks, t ∈ pending ↔
    ¬ Layers.Within (Plan.Needs p.tasks) l.batches.length t.id

theorem Scheduled.stopped {p : Plan} {pending : List Task} (h : Scheduled x permit p pending l)
    {e : Exc} (hb : ∃ i, l.Blames i e) (he : PlanError x l e) : Stopped x permit e l where
  ok := h.ok
  idle := h.idle
  outcome := h.outcome
  blames _ := hb
  planned _ := he

theorem Scheduled.cancelled {p : Plan} {pending : List Task}
    (h : Scheduled x permit p pending l) : Stopped x permit cancelledError l :=
  h.stopped (blames_fresh rfl) (.cancelled rfl)

/-- An accepted plan, before its first batch. -/
theorem InCloud.scheduled {k : ℕ} (h : InCloud x permit (x.planSlots k) l)
    (hk : k ≤ x.policy.planAttempts) {p : Plan} {raw : Json}
    (hp : checkedPlan x raw = .ok p) : Scheduled x permit p p.tasks { l with plan := some p } where
  ok :=
    { calls := h.ok.calls.congr rfl rfl le_rfl
      main := h.ok.main.congr rfl rfl rfl rfl h.ok.main.free
      plan :=
        { batches :=
            { unstarted := fun hnone => by cases hnone
              tasks := h.ok.plan.batches.tasks
              layers := fun _ _ k b hk => by
                rw [show l.batches = [] from h.ok.plan.batches.unstarted h.plan] at hk
                cases hk }
          none := fun hnone => by cases hnone
          accepted := fun q hq => by
            cases hq
            exact ⟨raw, hp⟩
          routed := fun _ _ => h.route
          tasks := fun _ _ job hj => by
            rw [h.jobs] at hj
            cases hj
          ids := h.ok.plan.ids
          keys := fun _ key hkey => by
            rw [h.results] at hkey
            cases hkey
          extracted := fun hnone => by cases hnone
          synthesized := fun c hc goal sources instruction results hpay => by
            have hslot := h.slots.subset (List.mem_map_of_mem (f := Call.slot) (h.mem_mine hc))
            rw [Call.slot, hpay] at hslot
            exact absurd hslot (not_mem_planSlots k).1
          unanswered := fun _ c hc hop => by
            have hslot := h.slots.subset (List.mem_map_of_mem (f := Call.slot) (h.mem_mine hc))
            cases hp : c.payload <;> rw [hp] at hop <;> cases hop
            rw [Call.slot, hp] at hslot
            exact (not_mem_planSlots k).2 hslot }
      jobs := fun n job hj => by
        have hj : l.jobs[n]? = some job := hj
        rw [h.jobs] at hj
        simp at hj
      ended := fun o ho => by
        have ho : l.outcome = some o := ho
        rw [h.outcome] at ho
        cases ho }
  idle := h.idle
  outcome := h.outcome
  plan := rfl
  slots := h.slots.trans (planSlots_mono hk)
  within := .refl _
  done t ht hnot := absurd ht hnot
  fresh t ht job hj := by
    have hj : job ∈ l.jobs := hj
    rw [h.jobs] at hj
    cases hj
  left t ht := by
    have hnone : l.batches = [] := h.ok.plan.batches.unstarted h.plan
    simp [hnone, ht]

/-! ## The planner's attempts -/

theorem fresh_checkedPlan (raw : Json) : Fresh (checkedPlan x raw) := by
  refine (Plan.fresh_parse _ _ _ _).bind fun plan => ?_
  split <;> simp

/-- A plan the planner's reply is read as. -/
theorem parse_of_checkedPlan {p : Plan} {raw : Json} (h : checkedPlan x raw = .ok p) :
    Plan.parse raw x.sources.keys x.limits.maxTasks x.tiers = .ok p := by
  obtain ⟨q, hq, h⟩ := bind_eq_ok.mp h
  split at h
  · cases h
  · cases h
    exact hq

theorem accepted_of_checkedPlan {p : Plan} {raw : Json} (h : checkedPlan x raw = .ok p) :
    p.Accepted x.sources.keys x.limits.maxTasks x.tiers :=
  Plan.accepted_of_parse (parse_of_checkedPlan h)

/-- **The planner.** By induction on the attempts that are left: each is one call, and its
reply is a plan, an error of the reader, or neither. -/
theorem wp_planFrom {context : List LocalAttempt} {n i : ℕ} {error : Option Str} {s : Run}
    {Q : Except Exc Plan → Run → Prop} (hplans : x.policy.plans x.lib x.text = true)
    (h : InCloud x permit (x.planSlots i) s.toLedger)
    (hn : i + n ≤ x.policy.planAttempts)
    (ok : ∀ p s', Scheduled x permit p p.tasks s'.toLedger → Q (.ok p) s')
    (stop : ∀ e s', Stopped x permit e s'.toLedger → Q (.error e) s') :
    (planFrom x context n (i + 1) error).wp (terms x permit .main) Q s := by
  induction n generalizing i error s with
  | zero => exact stop _ s (h.stopped (blames_fresh rfl))
  | succ n ih =>
      have hslots : x.planSlots i ++ [Slot.plan (i + 1)] = x.planSlots (i + 1) :=
        (planSlots_succ i).symm
      unfold planFrom
      rw [Coro.wp_bind]
      refine wp_call_inCloud h ?_ rfl hplans rfl (by simp [Payload.operation]) (fun _ => trivial)
        (fun raw s₁ h₁ => ?_) stop
      · change (x.planSlots i ++ [Slot.plan (i + 1)]).Sublist x.schedule
        rw [hslots]
        exact planSlots_sublist (by omega)
      · replace h₁ : InCloud x permit (x.planSlots (i + 1)) s₁.toLedger := hslots ▸ h₁
        rw [Coro.outcome_ok]
        cases hp : checkedPlan x raw with
        | ok p =>
            have hsch := h₁.scheduled (by omega) hp
            simp only
            rw [Coro.wp_bind]
            refine wp_update_main (mainStep_of_eq rfl rfl rfl rfl fun q hq => ?_) ?_
            · rw [h₁.plan] at hq
              cases hq
            · rw [Coro.outcome_ok, Coro.wp_bind]
              refine wp_event_idle hsch.ok hsch.idle fun r s₂ hl hpass => ?_
              have h₂ : Scheduled x permit p p.tasks s₂.toLedger := by
                rw [hl]
                exact hsch
              cases r with
              | ok _ => exact ok p s₂ h₂
              | error e =>
                  obtain rfl : e = cancelledError := by simpa using hpass
                  exact stop _ s₂ h₂.cancelled
        | error e =>
            simp only
            by_cases hcls : e.cls = .validation
            · rw [if_pos hcls, Coro.wp_bind]
              refine wp_event_idle h₁.ok h₁.idle fun r s₂ hl hpass => ?_
              rw [← hl] at h₁
              cases r with
              | ok _ => exact ih h₁ (by omega)
              | error e =>
                  obtain rfl : e = cancelledError := by simpa using hpass
                  exact stop _ s₂ (h₁.stopped (blames_fresh rfl))
            · rw [if_neg hcls]
              exact stop _ s₁ (h₁.stopped (blames_fresh (fresh_checkedPlan raw e hp).1))

theorem wp_makePlan {context : List LocalAttempt} {s : Run} {Q : Except Exc Plan → Run → Prop}
    (h : InCloud x permit (x.planSlots 0) s.toLedger)
    (hplans : x.policy.plans x.lib x.text = true)
    (ok : ∀ p s', Scheduled x permit p p.tasks s'.toLedger → Q (.ok p) s')
    (stop : ∀ e s', Stopped x permit e s'.toLedger → Q (.error e) s') :
    (makePlan x context).wp (terms x permit .main) Q s :=
  wp_planFrom hplans h (by omega) ok stop

/-! ## Inside a batch -/

/-- A batch of the tasks `ready` under way; the jobs of the tasks `before` are over. -/
structure Working (x : Setup) (permit : Permit) (p : Plan) (pending before ready : List Task)
    (l : Ledger) : Prop where
  ok : l.Ok x permit
  outcome : l.outcome = none
  plan : l.plan = some p
  slots : ((l.mine .main).map Call.slot).Sublist (x.planSlots x.policy.planAttempts)
  within : pending.Sublist p.tasks
  done : ∀ t ∈ p.tasks, t ∉ pending → t.id ∈ l.results.keys
  chosen : ready ⊆ pending
  tasks : l.jobs.map Job.task = before ++ ready
  past : ∀ n < before.length, l.running n = false
  fresh : ∀ t ∈ pending, ∀ t' ∈ before, t'.id ≠ t.id
  layer : ∃ k, l.batches.length = k + 1 ∧ ∀ t ∈ p.tasks,
    (t ∈ pending ↔ ¬ Layers.Within (Plan.Needs p.tasks) k t.id) ∧
    (t ∈ ready ↔ Layers.OnLayer (Plan.Needs p.tasks) k t.id)

variable {p : Plan} {pending before ready : List Task}

theorem Working.of_rely (h : Working x permit p pending before ready l) (hr : Rely .main l l')
    (hok : l'.Ok x permit) : Working x permit p pending before ready l' where
  ok := hok
  outcome := hr.outcome.trans h.outcome
  plan := hr.plan.trans h.plan
  slots := by
    rw [hr.calls.mine]
    exact h.slots
  within := h.within
  done t ht hnot := mem_keys_of_grows hr.grows (h.done t ht hnot)
  chosen := h.chosen
  tasks := hr.tasks.trans h.tasks
  past n hn := by
    rw [running_of_jobs_eq (hr.done n (h.past n hn))]
    exact h.past n hn
  fresh := h.fresh
  layer := by
    rw [hr.batches]
    exact h.layer

theorem Working.jobs_length (h : Working x permit p pending before ready l) :
    l.jobs.length = before.length + ready.length := by
  have := congrArg List.length h.tasks
  simpa using this

/-- When the jobs of the batch are over, all jobs are. -/
theorem Working.idle (h : Working x permit p pending before ready l)
    (hjs : (List.range' before.length ready.length).any l.running = false) : Idle l := by
  intro n
  by_cases hn : n < before.length
  · exact h.past n hn
  · by_cases hlt : n < l.jobs.length
    · rw [h.jobs_length] at hlt
      simp only [List.any_eq_false, Bool.not_eq_true] at hjs
      exact hjs n (List.mem_range'_1.mpr ⟨by omega, hlt⟩)
    · unfold Ledger.running
      rw [List.getElem?_eq_none (by omega)]

/-- The job of a task of the batch. -/
theorem Working.job (h : Working x permit p pending before ready l) {i : ℕ} {t : Task}
    (hi : ready[i]? = some t) :
    ∃ job, l.jobs[before.length + i]? = some job ∧ job.task = t := by
  have := congrArg (fun ts : List Task => ts[before.length + i]?) h.tasks
  simp only [List.getElem?_map, List.getElem?_append_right (Nat.le_add_right _ _),
    Nat.add_sub_cancel_left, hi] at this
  exact Option.map_eq_some_iff.mp this

theorem exists_of_valueOf {n : ℕ} {v : Json} (h : l.valueOf n = some v) :
    ∃ job, l.jobs[n]? = some job ∧ job.outcome = some (.ok v) := by
  unfold Ledger.valueOf at h
  split at h
  · rename_i w hw
    cases h
    exact Option.bind_eq_some_iff.mp hw
  · cases h

theorem exists_of_errorOf {n : ℕ} {e : Exc} (h : l.errorOf n = some e) :
    ∃ job, l.jobs[n]? = some job ∧ job.outcome = some (.error e) := by
  unfold Ledger.errorOf at h
  split at h
  · rename_i w hw
    cases h
    exact Option.bind_eq_some_iff.mp hw
  · cases h

/-- When every job of the batch returned, the results of its tasks are what they returned. -/
theorem Working.returned (h : Working x permit p pending before ready l) {values : List Json}
    (hv : (List.range' before.length ready.length).mapM l.valueOf = some values) :
    (∀ e ∈ ready.zip values, l.results.get? e.1.id = some e.2) ∧
      (∀ t ∈ ready, t.id ∈ l.results.keys) ∧
      (List.range' before.length ready.length).any l.running = false := by
  have hget : ∀ (i : ℕ) (t : Task), ready[i]? = some t → ∃ v, values[i]? = some v ∧
      l.results.get? t.id = some v ∧ l.running (before.length + i) = false := by
    intro i t hi
    have hlt := (List.getElem?_eq_some_iff.mp hi).1
    obtain ⟨v, hvi, hval⟩ := getElem?_of_mapM_eq_some hv (i := i) (a := before.length + i)
      (by rw [List.getElem?_range' hlt, Nat.one_mul])
    obtain ⟨job, hj, hout⟩ := exists_of_valueOf hval
    obtain ⟨job', hj', rfl⟩ := h.job hi
    cases hj.symm.trans hj'
    exact ⟨v, hvi, (h.ok.jobs _ _ hj).returned v hout, by simp [Ledger.running, hj, hout]⟩
  refine ⟨fun e he => ?_, fun t ht => ?_, ?_⟩
  · obtain ⟨i, hi⟩ := List.mem_iff_getElem?.mp he
    obtain ⟨ht, hvi⟩ := List.getElem?_zip_eq_some.mp hi
    obtain ⟨v, hv', hres, -⟩ := hget i _ ht
    rw [hres, hv'.symm.trans hvi]
  · obtain ⟨i, hi⟩ := List.mem_iff_getElem?.mp ht
    obtain ⟨v, -, hres, -⟩ := hget i t hi
    exact Dict.mem_keys_iff.mpr ⟨v, hres⟩
  · rw [List.any_eq_false]
    intro n hn
    obtain ⟨hle, hlt⟩ := List.mem_range'_1.mp hn
    obtain ⟨_, -, -, hrun⟩ := hget (n - before.length) _
      (List.getElem?_eq_getElem (by omega))
    rw [Nat.add_sub_cancel' hle] at hrun
    simp [hrun]

/-- Setting results again to what they are changes nothing. -/
theorem setResults_eq {entries : List (Task × Json)} {s : Run}
    (h : ∀ e ∈ entries, s.results.get? e.1.id = some e.2) : Run.setResults entries s = s := by
  induction entries with
  | nil => rfl
  | cons e entries ih =>
      have hset : s.setResult e.1.id e.2 = s := by
        simp only [Run.setResult, Dict.set_of_get? (h e (by simp))]
      change Run.setResults entries (s.setResult e.1.id e.2) = s
      rw [hset]
      exact ih fun e' he' => h e' (by simp [he'])

theorem mem_readyTasks {pending : List Task} {results : Dict Str Json} {t : Task} :
    t ∈ readyTasks pending results ↔ t ∈ pending ∧ ∀ d ∈ t.dependsOn, d ∈ results.keys := by
  simp [readyTasks]

/-- A task has a result exactly when it was run. -/
theorem Scheduled.mem_keys_iff (h : Scheduled x permit p pending l) {t : Task}
    (ht : t ∈ p.tasks) : t.id ∈ l.results.keys ↔ t ∉ pending := by
  refine ⟨fun hk hp => ?_, h.done t ht⟩
  obtain ⟨job, hj, heq⟩ := h.ok.plan.keys (by rw [h.plan]; rfl) t.id hk
  exact h.fresh t hp job hj heq

/-- The tasks that can be run next are those on the next layer. -/
theorem Scheduled.ready_iff (h : Scheduled x permit p pending l) {t : Task} (ht : t ∈ p.tasks) :
    t ∈ readyTasks pending l.results ↔
      Layers.OnLayer (Plan.Needs p.tasks) l.batches.length t.id := by
  obtain ⟨raw, hraw⟩ := h.ok.plan.accepted p h.plan
  have hacc := accepted_of_checkedPlan hraw
  rw [mem_readyTasks, Layers.onLayer_iff, Layers.within_succ, h.left t ht, and_comm]
  refine and_congr_left fun _ => forall_congr' fun d => ?_
  rw [Plan.needs_iff hacc.ids ht]
  refine forall_congr' fun hd => ?_
  obtain ⟨u, hu, rfl⟩ := List.mem_map.mp (hacc.closed t ht d hd)
  rw [h.mem_keys_iff hu, h.left u hu, not_not]

/-- One batch more. -/
theorem BatchesOk.concat {tasks : List Task} {batches : List (List Task)}
    (h : BatchesOk (some p) tasks batches) (hsub : ready ⊆ p.tasks)
    (hlayer : ∀ t ∈ p.tasks, t ∈ ready ↔
      Layers.OnLayer (Plan.Needs p.tasks) batches.length t.id) :
    BatchesOk (some p) (tasks ++ ready) (batches ++ [ready]) where
  unstarted hnone := by cases hnone
  tasks := by rw [List.flatten_append, h.tasks, List.flatten_singleton]
  layers q hq k b hk t := by
    cases hq
    rcases getElem?_concat_cases hk with hk | ⟨rfl, rfl⟩
    · exact h.layers p rfl k b hk t
    · exact ⟨fun ht => ⟨hsub ht, (hlayer t (hsub ht)).mp ht⟩, fun ht => (hlayer t ht.1).mpr ht.2⟩

/-- What the jobs created for a batch add to the records. -/
theorem Scheduled.working (h : Scheduled x permit p pending l)
    (hbatch : ready = readyTasks pending l.results) :
    Working x permit p pending (l.jobs.map Job.task) ready
      { l with
        jobs := l.jobs ++ ready.map fun t => { task := t }
        batches := l.batches ++ [ready] } := by
  obtain ⟨raw, hraw⟩ := h.ok.plan.accepted p h.plan
  have hready : ready.Sublist pending := hbatch ▸ List.filter_sublist
  have hdeps : ∀ t ∈ ready, ∀ d ∈ t.dependsOn, d ∈ l.results.keys := by
    intro t ht
    rw [hbatch] at ht
    exact (mem_readyTasks.mp ht).2
  have hlayer : ∀ t ∈ p.tasks, t ∈ ready ↔
      Layers.OnLayer (Plan.Needs p.tasks) l.batches.length t.id := by
    intro t ht
    rw [hbatch]
    exact h.ready_iff ht
  have hids : (ready.map Task.id).Nodup :=
    (accepted_of_checkedPlan hraw).ids.sublist ((hready.trans h.within).map _)
  have hnew : ∀ n, l.jobs.length ≤ n → l.mine (.job n) = [] := by
    intro n hn
    rw [Ledger.mine, List.filter_eq_nil_iff]
    intro c hc hthread
    rcases h.ok.calls.maker c hc with hm | ⟨m, hm, ht⟩
    · simp [hm] at hthread
    · have : m = n := by simpa [ht] using hthread
      omega
  have hunset : ∀ t ∈ ready, l.results.get? t.id = none := by
    intro t ht
    by_contra hne
    obtain ⟨v, hv⟩ := Option.ne_none_iff_exists'.mp hne
    obtain ⟨job, hj, heq⟩ := h.ok.plan.keys (by rw [h.plan]; rfl) t.id
      (Dict.mem_keys_iff.mpr ⟨v, hv⟩)
    exact h.fresh t (hready.subset ht) job hj heq
  refine
    { ok := ?_, outcome := h.outcome, plan := h.plan, slots := h.slots, within := h.within
      done := h.done, chosen := hready.subset
      tasks := by simp [Function.comp_def]
      past := fun n hn => ?_
      fresh := fun t ht t' ht' => ?_
      layer := ⟨l.batches.length, by simp, fun t ht => ⟨h.left t ht, hlayer t ht⟩⟩ }
  · refine
      { calls := h.ok.calls.congr rfl rfl (by simp)
        main := h.ok.main.congr rfl rfl rfl rfl h.ok.main.free
        plan :=
          { batches := by
              have := (h.plan ▸ h.ok.plan.batches).concat (hready.trans h.within).subset hlayer
              simpa [h.plan, Function.comp_def] using this
            none := fun hnone => ?_
            accepted := h.ok.plan.accepted, routed := h.ok.plan.routed
            tasks := fun q hq job hj => ?_
            ids := ?_
            keys := fun hsome k hk => ?_
            extracted := h.ok.plan.extracted
            synthesized := h.ok.plan.synthesized, unanswered := h.ok.plan.unanswered }
        jobs := fun n job hj => ?_
        ended := fun o ho => ?_ }
    · have hnone : l.plan = none := hnone
      rw [h.plan] at hnone
      cases hnone
    · have hq : l.plan = some q := hq
      rw [h.plan] at hq
      cases hq
      rcases List.mem_append.mp hj with hj | hj
      · exact h.ok.plan.tasks p h.plan job hj
      · obtain ⟨t, ht, rfl⟩ := List.mem_map.mp hj
        exact h.within.subset (hready.subset ht)
    · rw [List.map_append]
      refine List.Nodup.append h.ok.plan.ids (by simpa [Function.comp_def] using hids) ?_
      intro k hk hk'
      obtain ⟨job, hj, rfl⟩ := List.mem_map.mp hk
      obtain ⟨job', hj', heq⟩ := List.mem_map.mp hk'
      obtain ⟨t, ht, rfl⟩ := List.mem_map.mp hj'
      exact h.fresh t (hready.subset ht) job hj heq.symm
    · obtain ⟨job, hj, heq⟩ := h.ok.plan.keys hsome k hk
      exact ⟨job, List.mem_append_left _ hj, heq⟩
    · rcases Nat.lt_or_ge n l.jobs.length with hn | hn
      · have hj : (l.jobs ++ _)[n]? = some job := hj
        rw [List.getElem?_append_left hn] at hj
        refine (h.ok.jobs n job hj).of_rely hj (jobRely_of_eq (.refl _ l) (.refl _) rfl ?_)
        exact List.getElem?_append_left hn
      · have hj : (l.jobs ++ _)[n]? = some job := hj
        rw [List.getElem?_append_right hn] at hj
        obtain ⟨t, ht, rfl⟩ := List.mem_map.mp (List.mem_of_getElem? hj)
        exact
          { deps := hdeps t ht
            ladder := .inl (hnew n hn)
            accepted := fun v hv => by
              cases (hunset t ht).symm.trans hv
            returned := fun v hv => by cases hv
            failed := fun e he => by cases he
            unaccepted := fun e he => by cases he }
    · have ho : l.outcome = some o := ho
      rw [h.outcome] at ho
      cases ho
  · rw [running_of_jobs_eq (l := l)]
    · exact h.idle n
    · rw [List.length_map] at hn
      exact List.getElem?_append_left hn
  · obtain ⟨job, hj, rfl⟩ := List.mem_map.mp ht'
    exact h.fresh t ht job hj

/-- Creating jobs is a step of the main flow. -/
theorem mainStep_addJobs (new : List Job) (batches : List (List Task)) :
    MainStep l { l with jobs := l.jobs ++ new, batches } where
  calls j _ := .refl j l
  history := .refl l
  budget := .refl _
  grows := .refl _
  busy _ := rfl
  plan _ h := h
  jobs := ⟨new, rfl⟩

/-- After a batch the tasks that are left are scheduled. -/
theorem Working.scheduled (h : Working x permit p pending before ready l) (hidle : Idle l)
    (hready : ∀ t ∈ ready, t.id ∈ l.results.keys) :
    Scheduled x permit p (pending.filter fun t => !ready.contains t) l where
  ok := h.ok
  idle := hidle
  outcome := h.outcome
  plan := h.plan
  slots := h.slots
  within := List.filter_sublist.trans h.within
  done t ht hnot := by
    by_cases hp : t ∈ pending
    · by_cases hr : t ∈ ready
      · exact hready t hr
      · exact absurd (List.mem_filter.mpr ⟨hp, by simpa using hr⟩) hnot
    · exact h.done t ht hp
  fresh t ht job hj heq := by
    obtain ⟨htp, htr⟩ := List.mem_filter.mp ht
    have htr : t ∉ ready := by simpa using htr
    have hmem : job.task ∈ before ++ ready := h.tasks ▸ List.mem_map_of_mem hj
    obtain ⟨raw, hraw⟩ := h.ok.plan.accepted p h.plan
    rcases List.mem_append.mp hmem with hb | hr
    · exact h.fresh t htp _ hb heq
    · have := List.inj_on_of_nodup_map (accepted_of_checkedPlan hraw).ids
        (h.within.subset (h.chosen hr)) (h.within.subset htp) heq
      exact htr (this ▸ hr)
  left t ht := by
    obtain ⟨k, hk, hlayer⟩ := h.layer
    rw [hk, List.mem_filter, (hlayer t ht).1]
    have hr := (hlayer t ht).2
    rw [Layers.onLayer_iff] at hr
    have hmono : Layers.Within (Plan.Needs p.tasks) k t.id →
        Layers.Within (Plan.Needs p.tasks) (k + 1) t.id := fun h => h.mono (Nat.le_succ k)
    simp only [Bool.not_eq_true', List.contains_eq_mem, decide_eq_false_iff_not, hr]
    tauto

/-- Gathering jobs: it ends with an error of one of them, with a cancellation, or with the
values of all. -/
theorem wp_gather {js : List ℕ} {s : Run} {Q : Except Exc (List Json) → Run → Prop}
    (hok : s.toLedger.Ok x permit)
    (hQ : ∀ r s', Rely .main s.toLedger s'.toLedger → s'.toLedger.Ok x permit →
      (∀ e, r = .error e → e = cancelledError ∨
        ∃ (n : ℕ) (job : Job), s'.jobs[n]? = some job ∧ job.outcome = some (.error e)) →
      (∀ values, r = .ok values → js.mapM s'.toLedger.valueOf = some values) → Q r s') :
    (gather js).wp (terms x permit .main) Q s := by
  unfold gather
  rw [Coro.wp_bind]
  refine wp_update_of_eq rfl ?_
  refine wp_ask hok fun s₁ m r s' hr hok' heq _ ha => hQ r s' hr hok' ?_ ?_
  · rintro e rfl
    rcases answer_cases ha with ⟨-, -, -, he, -⟩ | ⟨-, -, ha⟩
    · cases he
      exact .inl rfl
    · obtain ⟨-, ⟨e', he, hfirst⟩ | he | ⟨_, he, -⟩⟩ :=
        answerGather_cases (ordinary_eq_some ha).2
      · cases he
        obtain ⟨n, -, hn⟩ := List.exists_of_findSome?_eq_some hfirst
        split at hn
        · obtain ⟨job, hj, hout⟩ := exists_of_errorOf hn
          refine .inr ⟨n, job, ?_, hout⟩
          rw [heq]
          exact hj
        · cases hn
      · cases he
        exact .inl rfl
      · cases he
  · rintro values rfl
    rcases answer_cases ha with ⟨-, -, -, he, -⟩ | ⟨-, -, ha⟩
    · cases he
    · obtain ⟨-, ⟨_, he, -⟩ | he | ⟨values', he, hv⟩⟩ :=
        answerGather_cases (ordinary_eq_some ha).2
      · cases he
      · cases he
      · cases he
        rw [heq]
        exact hv

/-- Waiting for jobs to end, whatever they return or raise. -/
theorem wp_join {js : List ℕ} {s : Run} {Q : Except Exc Unit → Run → Prop}
    (hok : s.toLedger.Ok x permit)
    (hQ : ∀ r s', Rely .main s.toLedger s'.toLedger → s'.toLedger.Ok x permit → Passed r →
      js.any s'.toLedger.running = false → Q r s') :
    (join js).wp (terms x permit .main) Q s := by
  unfold join
  rw [Coro.wp_bind]
  refine wp_update_of_eq rfl ?_
  refine wp_ask hok fun s₁ m r s' hr hok' heq _ ha => ?_
  rcases answer_cases ha with ⟨-, -, hint, rfl, -⟩ | ⟨-, -, ha⟩
  · refine hQ _ s' hr hok' (by simp) ?_
    rw [heq]
    simpa [Op.interruptible] using hint
  · obtain ⟨-, hjs, hres⟩ := answerJoin_cases (ordinary_eq_some ha).2
    refine hQ r s' hr hok' ?_ (by rw [heq]; exact hjs)
    rcases hres with rfl | rfl <;> simp

theorem cancel_toLedger (i : Thread) (s : Run) : (s.cancel i).toLedger = s.toLedger := rfl

theorem cancelJobs_toLedger (js : List ℕ) (s : Run) :
    (Run.cancelJobs js s).toLedger = s.toLedger := by
  unfold Run.cancelJobs
  generalize js.filter s.toLedger.running = ns
  induction ns generalizing s with
  | nil => rfl
  | cons n ns ih => exact (ih (s.cancel (.job n))).trans (cancel_toLedger _ s)

/-- **One batch.** When it returns, the tasks that are left are scheduled; when it raises,
all jobs are over. -/
theorem wp_batch {s : Run} {Q : Except Exc Unit → Run → Prop}
    (h : Scheduled x permit p pending s.toLedger)
    (hready : ready = readyTasks pending s.results)
    (ok : ∀ s', Scheduled x permit p (pending.filter fun t => !ready.contains t) s'.toLedger →
      Q (.ok ()) s')
    (stop : ∀ e s', Stopped x permit e s'.toLedger → Q (.error e) s') :
    (batch ready).wp (terms x permit .main) Q s := by
  unfold batch
  rw [Coro.wp_bind, Coro.wp_read, Coro.outcome_ok]
  simp only
  have hlen : s.jobs.length = (s.jobs.map Job.task).length := by simp
  have hstart := h.working hready
  rw [hlen, Coro.wp_bind]
  refine wp_update_main (mainStep_addJobs _ _) ?_
  rw [Coro.outcome_ok, Coro.wp_tryFinally]
  -- What follows the values or the error: the jobs left are cancelled, and all have to end.
  have hfinally : ∀ (r : Except Exc Unit) (s₁ : Run),
      Working x permit p pending (s.jobs.map Job.task) ready s₁.toLedger →
      (r = .ok () → Idle s₁.toLedger ∧ ∀ t ∈ ready, t.id ∈ s₁.results.keys) →
      (∀ e, r = .error e → e = cancelledError ∨
        ∃ (n : ℕ) (job : Job), s₁.jobs[n]? = some job ∧ job.outcome = some (.error e)) →
      Coro.wp (terms x permit .main) (do
        Coro.update (Run.cancelJobs (List.range' (s.jobs.map Job.task).length ready.length))
        join (List.range' (s.jobs.map Job.task).length ready.length))
        (Coro.outcome (fun _ => Q r) fun e => Q (.error e)) s₁ := by
    intro r s₁ h₁ hidle herr
    rw [Coro.wp_bind]
    refine wp_update_of_eq (cancelJobs_toLedger _ _) ?_
    rw [Coro.outcome_ok]
    refine wp_join (by rw [cancelJobs_toLedger]; exact h₁.ok) fun r' s₂ hr hok hp hjs => ?_
    rw [cancelJobs_toLedger] at hr
    have h₂ := h₁.of_rely hr hok
    have hstop : ∀ e, (∃ i, s₂.toLedger.Blames i e) → PlanError x s₂.toLedger e →
        Q (.error e) s₂ := fun e hb he =>
      stop e s₂ ⟨hok, h₂.idle hjs, h₂.outcome, fun _ => hb, fun _ => he⟩
    cases r' with
    | error e =>
        obtain rfl : e = cancelledError := by simpa using hp
        exact hstop _ (blames_fresh rfl) (.cancelled rfl)
    | ok _ =>
        rw [Coro.outcome_ok]
        cases r with
        | ok _ =>
            obtain ⟨_, hres⟩ := hidle rfl
            exact ok s₂ (h₂.scheduled (h₂.idle hjs) fun t ht =>
              mem_keys_of_grows hr.grows (hres t ht))
        | error e =>
            rcases herr e rfl with rfl | ⟨n, job, hj, hout⟩
            · exact hstop _ (blames_fresh rfl) (.cancelled rfl)
            · have hover : s₁.toLedger.running n = false := by
                simp [Ledger.running, hj, hout]
              have hj₂ : s₂.jobs[n]? = some job := (hr.done n hover).trans hj
              exact hstop e ⟨_, ((hok.jobs n job hj₂).failed e hout).blames⟩ (.worker hj₂ hout)
  rw [Coro.wp_bind]
  refine wp_gather hstart.ok fun r s₁ hr hok herr hval => ?_
  have h₁ := hstart.of_rely hr hok
  cases r with
  | error e =>
      refine hfinally (.error e) s₁ h₁ (fun hne => by cases hne) fun e' he' => ?_
      cases he'
      exact herr e rfl
  | ok values =>
      obtain ⟨hres, hkeys, hjs⟩ := h₁.returned (hval values rfl)
      rw [Coro.outcome_ok]
      refine wp_update_of_eq (by rw [setResults_eq hres]) ?_
      rw [setResults_eq hres]
      exact hfinally (.ok ()) s₁ h₁ (fun _ => ⟨h₁.idle hjs, hkeys⟩) fun e he => by cases he

/-- **The batches.** By induction on the turns: every batch takes a task away, since in an
acyclic graph some task that is left can be run. -/
theorem wp_runBatches {turns : ℕ} {s : Run} {Q : Except Exc Unit → Run → Prop}
    (h : Scheduled x permit p pending s.toLedger) (hturns : pending.length ≤ turns)
    (ok : ∀ s', Scheduled x permit p [] s'.toLedger → Q (.ok ()) s')
    (stop : ∀ e s', Stopped x permit e s'.toLedger → Q (.error e) s') :
    (runBatches turns pending hturns).wp (terms x permit .main) Q s := by
  induction turns generalizing pending s with
  | zero =>
      obtain rfl : pending = [] := List.length_eq_zero_iff.mp (by omega)
      exact ok s h
  | succ turns ih =>
      cases pending with
      | nil => exact ok s h
      | cons t₀ rest =>
          have hsub : (readyTasks (t₀ :: rest) s.results).Sublist (t₀ :: rest) :=
            List.filter_sublist
          have hne : readyTasks (t₀ :: rest) s.results ≠ [] := by
            obtain ⟨raw, hraw⟩ := h.ok.plan.accepted p h.plan
            have hunset : t₀.id ∉ s.results.keys := by
              intro hk
              obtain ⟨job, hj, heq⟩ := h.ok.plan.keys (by rw [h.plan]; rfl) t₀.id hk
              exact h.fresh t₀ (by simp) job hj heq
            obtain ⟨t, ht, hnot, hd⟩ := (accepted_of_checkedPlan hraw).exists_ready
              (h.within.subset (by simp)) hunset
            have htp : t ∈ t₀ :: rest := by
              by_contra hnp
              exact hnot (h.done t ht hnp)
            exact List.ne_nil_of_mem (List.mem_filter.mpr ⟨htp, by simpa using hd⟩)
          unfold runBatches
          rw [Coro.wp_bind, Coro.wp_read, Coro.outcome_ok]
          split
          · rename_i hnil
            exact absurd hnil hne
          · rw [Coro.wp_bind]
            refine wp_batch h rfl (fun s' h' => ?_) stop
            rw [Coro.outcome_ok]
            exact ih h' _

theorem wp_runTasks {s : Run} {Q : Except Exc Unit → Run → Prop}
    (h : Scheduled x permit p p.tasks s.toLedger)
    (ok : ∀ s', Scheduled x permit p [] s'.toLedger → Q (.ok ()) s')
    (stop : ∀ e s', Stopped x permit e s'.toLedger → Q (.error e) s') :
    (runTasks p).wp (terms x permit .main) Q s :=
  wp_runBatches h le_rfl ok stop

end HorizonRelay
