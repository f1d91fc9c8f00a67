import HorizonRelay.Engine.Keeps

/-!
# Workers

The worker of a job climbs the ladder of its task: `Climbing` says where it is, `wp_ladder`
is the induction over the tiers that are left.

## Main definitions

* `Climbing` — a worker between two attempts, all earlier ones failed.
* `JobEnd` — what holds where a worker ends.

## Main results

* `wp_worker` — the worker of a job keeps the records fine, and ends in a `JobEnd`.
-/

namespace HorizonRelay

open Py Coop

variable {x : Setup} {permit : Permit} {l l' : Ledger} {n : ℕ} {job : Job}
  {inputs : Inputs} {cs : List Call} {c : Call}

/-! ## Ladders -/

theorem Ladder.nil (task : Task) (inputs : Inputs) : Ladder x task inputs [] where
  payload i c h := by simp at h
  tier i c h := by simp at h
  failed i c h := by simp at h

/-- The next attempt, all earlier ones failed. -/
theorem Ladder.snoc {task : Task} (h : Ladder x task inputs cs)
    (hfailed : ∀ c ∈ cs, (c.failure task inputs).isSome)
    (hp : c.payload = .work task inputs x.goal (cs.length + 1) (failures task inputs cs))
    (ht : (x.policy.workerTiers task x.tiers)[cs.length]? = some c.record.tier) :
    Ladder x task inputs (cs ++ [c]) := by
  have hcases : ∀ (i : ℕ) (d : Call), (cs ++ [c])[i]? = some d →
      (i < cs.length ∧ cs[i]? = some d) ∨ (i = cs.length ∧ d = c) := by
    intro i d hd
    refine (getElem?_concat_cases hd).imp_left fun hold => ⟨?_, hold⟩
    exact (List.getElem?_eq_some_iff.mp hold).1
  constructor
  · intro i d hd
    rcases hcases i d hd with ⟨hi, hd⟩ | ⟨rfl, rfl⟩
    · rw [List.take_append_of_le_length (by omega)]
      exact h.payload i d hd
    · rw [List.take_left]
      exact hp
  · intro i d hd
    rcases hcases i d hd with ⟨hi, hd⟩ | ⟨rfl, rfl⟩
    · exact h.tier i d hd
    · exact ht
  · intro i d hd hlt
    rcases hcases i d hd with ⟨hi, hd⟩ | ⟨rfl, rfl⟩
    · exact hfailed d (List.mem_of_getElem? hd)
    · simp at hlt

/-- Every failed attempt leaves its error. -/
theorem failures_append (task : Task) (inputs : Inputs) (cs : List Call) {c : Call} {e : Str}
    (h : c.failure task inputs = some e) :
    failures task inputs (cs ++ [c]) = failures task inputs cs ++ [e] := by
  simp [failures, h]

/-! ## Where a worker is -/

/-- The worker of job `n` after the failed attempts `cs`. -/
structure Climbing (x : Setup) (n : ℕ) (job : Job) (inputs : Inputs) (cs : List Call)
    (l : Ledger) : Prop where
  here : l.jobs[n]? = some job
  fresh : job.outcome = none
  resolved : l.inputsOf x job.task = .ok inputs
  mine : l.mine (.job n) = cs
  ladder : Ladder x job.task inputs cs
  failed : ∀ c ∈ cs, (c.failure job.task inputs).isSome
  pending : l.results.get? job.task.id = none

theorem running_of_here (h : l.jobs[n]? = some job) (hf : job.outcome = none) :
    l.running n = true := by
  simp [Ledger.running, h, hf]

theorem Climbing.running (h : Climbing x n job inputs cs l) : l.running n = true :=
  running_of_here h.here h.fresh

theorem Climbing.of_rely (h : Climbing x n job inputs cs l) (hr : Rely (.job n) l l') :
    Climbing x n job inputs cs l' := by
  have hr := hr.2 h.running
  exact
    { here := hr.job.trans h.here
      fresh := h.fresh
      resolved := inputsOf_of_grows hr.grows h.resolved
      mine := hr.calls.mine.trans h.mine
      ladder := h.ladder
      failed := h.failed
      pending := (hr.result job h.here).trans h.pending }

/-- A worker in the middle of an attempt: `c` is its call. -/
structure Attempting (x : Setup) (n : ℕ) (job : Job) (inputs : Inputs) (cs : List Call)
    (c : Call) (l : Ledger) : Prop where
  here : l.jobs[n]? = some job
  fresh : job.outcome = none
  resolved : l.inputsOf x job.task = .ok inputs
  mine : l.mine (.job n) = cs ++ [c]
  ladder : Ladder x job.task inputs (cs ++ [c])
  failed : ∀ c ∈ cs, (c.failure job.task inputs).isSome
  pending : l.results.get? job.task.id = none

theorem Attempting.running (h : Attempting x n job inputs cs c l) : l.running n = true :=
  running_of_here h.here h.fresh

theorem Attempting.of_rely (h : Attempting x n job inputs cs c l) (hr : Rely (.job n) l l') :
    Attempting x n job inputs cs c l' := by
  have hr := hr.2 h.running
  exact
    { here := hr.job.trans h.here
      fresh := h.fresh
      resolved := inputsOf_of_grows hr.grows h.resolved
      mine := hr.calls.mine.trans h.mine
      ladder := h.ladder
      failed := h.failed
      pending := (hr.result job h.here).trans h.pending }

/-- A failed attempt is one more rung. -/
theorem Attempting.climb (h : Attempting x n job inputs cs c l)
    (hc : (c.failure job.task inputs).isSome) : Climbing x n job inputs (cs ++ [c]) l where
  here := h.here
  fresh := h.fresh
  resolved := h.resolved
  mine := h.mine
  ladder := h.ladder
  failed d hd := by
    rcases List.mem_append.mp hd with hd | hd
    · exact h.failed d hd
    · rw [List.mem_singleton.mp hd]
      exact hc
  pending := h.pending

/-- The job of a worker in the middle of an attempt. -/
theorem Attempting.jobOk (h : Attempting x n job inputs cs c l)
    (hdeps : ∀ d ∈ job.task.dependsOn, d ∈ l.results.keys) : JobOk x l n job where
  deps := hdeps
  ladder := .inr ⟨inputs, h.resolved, by rw [h.mine]; exact h.ladder⟩
  accepted v hv := by
    rw [h.pending] at hv
    cases hv
  returned v hv := by
    rw [h.fresh] at hv
    cases hv
  failed e he := by
    rw [h.fresh] at he
    cases he
  unaccepted _ _ _ := h.pending

/-! ## The next attempt -/

/-- The call of the next attempt, as the worker makes it. -/
structure NextCall (x : Setup) (n : ℕ) (job : Job) (inputs : Inputs) (cs : List Call)
    (tier : Tier) (p : Payload) : Prop where
  payload : p = .work job.task inputs x.goal (cs.length + 1) (failures job.task inputs cs)
  tier : (x.policy.workerTiers job.task x.tiers)[cs.length]? = some tier

variable {tier : Tier} {p : Payload} {b : CloudBudget}

theorem Climbing.attempting (h : Climbing x n job inputs cs l)
    (hn : NextCall x n job inputs cs tier p) (hc : c.MadeBy (.job n) tier p)
    (hr : Rely (.job n) (l.withCall b c) l') : Attempting x n job inputs cs c l' := by
  have hr := hr.2 h.running
  refine
    { here := hr.job.trans h.here
      fresh := h.fresh
      resolved := inputsOf_of_grows hr.grows h.resolved
      mine := ?_
      ladder := h.ladder.snoc h.failed (hc.payload.trans hn.payload) ?_
      failed := h.failed
      pending := (hr.result job h.here).trans h.pending }
  · rw [hr.calls.mine, ← hc.thread, mine_withCall, hc.thread, h.mine]
  · rw [hc.tier]
    exact hn.tier

/-- The worker may make its next call. -/
theorem Climbing.callRule (h : Climbing x n job inputs cs l) (hok : l.Ok x permit)
    (hn : NextCall x n job inputs cs tier p) : CallRule x permit (.job n) tier p l := by
  have hmaker : Thread.job n = .main ∨ ∃ m, m < l.jobs.length ∧ Thread.job n = .job m :=
    .inr ⟨n, lt_of_running h.running, rfl⟩
  have hdeps := (hok.jobs n job h.here).deps
  constructor
  · exact h.running
  · intro b c hb hc hnone
    have hstep : JobStep n l (l.withCall b c) :=
      jobStep_of_calls h.running rfl (grown_of_charge hb) (keeps_withCall l b c) fun j hj =>
        sameCalls_withCall (hc.thread ▸ hj)
    refine hok.jobStep hstep (hok.calls.withCall hb hc ?_ hmaker) fun job' hj' => ?_
    · intro r hr
      rw [hnone] at hr
      cases hr
    · have hat := h.attempting hn hc (.refl _ (l.withCall b c))
      rw [hat.here] at hj'
      cases hj'
      exact hat.jobOk hdeps
  · intro b c l' c' hb hc hr hok' hc' hend hp
    have hk := hr.getElem?_mine (active_withCall h.running) hc.thread (withCall_getElem? l b c)
    have hat := h.attempting hn hc hr
    have hstep : JobStep n l' (l'.putCall l.calls.length c') :=
      jobStep_of_calls hat.running rfl (.refl _) (keeps_putCall hk hc hc' hend) fun j hj =>
        sameCalls_putCall hk (hc.thread ▸ hj) (hc'.thread.trans hc.thread.symm)
    refine hok'.jobStep hstep (hok'.calls.putCall hk hc hc' hp) fun job' hj' => ?_
    have hr' := hr.putCall (active_withCall h.running) c' hc.thread (withCall_getElem? l b c)
    rw [putCall_withCall] at hr'
    have hat' := h.attempting hn hc' hr'
    rw [hat'.here] at hj'
    cases hj'
    refine hat'.jobOk fun d hd => ?_
    exact mem_keys_of_grows (hr.2 h.running).grows (hdeps d hd)

/-- What holds where a worker ends. -/
structure JobEnd (x : Setup) (permit : Permit) (n : ℕ) (job : Job) (r : Except Exc Json)
    (l : Ledger) : Prop where
  ok : l.Ok x permit
  here : l.jobs[n]? = some job
  fresh : job.outcome = none
  returned : ∀ v, r = .ok v → l.results.get? job.task.id = some v
  failed : ∀ e, r = .error e → WorkerError x l n job e
  unaccepted : ∀ e, r = .error e → e ≠ cancelledError → l.results.get? job.task.id = none

/-- A worker stops on an error before its result was accepted. -/
theorem jobEnd_of_error {e : Exc} (hok : l.Ok x permit) (hj : l.jobs[n]? = some job)
    (hf : job.outcome = none) (he : WorkerError x l n job e)
    (hnone : l.results.get? job.task.id = none) : JobEnd x permit n job (.error e) l where
  ok := hok
  here := hj
  fresh := hf
  returned v hv := by cases hv
  failed e' he' := by
    cases he'
    exact he
  unaccepted _ _ _ := hnone

theorem jobEnd_of_cancel (hok : l.Ok x permit) (hj : l.jobs[n]? = some job)
    (hf : job.outcome = none) : JobEnd x permit n job (.error cancelledError) l where
  ok := hok
  here := hj
  fresh := hf
  returned v hv := by cases hv
  failed e he := by
    cases he
    exact .cancelled rfl
  unaccepted e he hne := by
    cases he
    exact absurd rfl hne

theorem charge_eq_error {op : Operation} {e : Exc} (h : charge x tier op b = .error e) :
    e.cls = .budget ∧ e.call = none ∧ b.Refuses x.limits op ∧ tier = .cloud := by
  unfold charge at h
  by_cases ht : tier = .cloud
  · rw [if_pos ht] at h
    obtain ⟨hcls, hcall⟩ := CloudBudget.spent_eq_error h
    exact ⟨hcls, hcall, ⟨e, h⟩, ht⟩
  · rw [if_neg ht] at h
    cases h

/-! ## One attempt -/

/-- How an attempt can end: without a call, because the worker was cancelled or the cloud
refused, or with a call and its outcome. -/
inductive Performed (x : Setup) (n : ℕ) (job : Job) (inputs : Inputs) (cs : List Call)
    (tier : Tier) (p : Payload) : Except Exc (Json × CallRecord) → Ledger → Prop
  | stopped {e : Exc} {l : Ledger} (h : Climbing x n job inputs cs l)
      (he : e = cancelledError ∨
        e.cls = .budget ∧ e.call = none ∧ l.budget.Refuses x.limits .work ∧ tier = .cloud) :
      Performed x n job inputs cs tier p (.error e) l
  | made {c : Call} {k : ℕ} {r : Except Exc (Json × CallRecord)} {l : Ledger}
      (h : Attempting x n job inputs cs c l) (hk : l.calls[k]? = some c)
      (hc : c.MadeBy (.job n) tier p) (hr : c.EndedAs k r) :
      Performed x n job inputs cs tier p r l

/-- An attempt's calls are made under its rule. -/
theorem wp_attempt_call {s : Run} {Q : Except Exc (Json × CallRecord) → Run → Prop}
    (hok : s.toLedger.Ok x permit) (h : Climbing x n job inputs cs s.toLedger)
    (hn : NextCall x n job inputs cs tier p)
    (hQ : ∀ r s', s'.toLedger.Ok x permit →
      Performed x n job inputs cs tier p r s'.toLedger → Q r s') :
    (callWithRecord x (.job n) tier p).wp (terms x permit (.job n)) Q s := by
  refine wp_callWithRecord (h.callRule hok hn) (fun e he => ?_) fun b c r s' hb hm hp hr => ?_
  · rw [hn.payload] at he
    exact hQ _ _ hok (.stopped h (.inr (charge_eq_error he)))
  · refine hQ r s' hm.ok (.made (h.attempting hn hm.made hm.rely) ?_ hm.made hr)
    exact hm.getElem? h.running

theorem wp_perform {s : Run} {attempt : ℕ} {errors : List Str}
    {Q : Except Exc (Json × CallRecord) → Run → Prop}
    (hok : s.toLedger.Ok x permit) (h : Climbing x n job inputs cs s.toLedger)
    (hn : NextCall x n job inputs cs tier (.work job.task inputs x.goal attempt errors))
    (hQ : ∀ r s', s'.toLedger.Ok x permit → Performed x n job inputs cs tier
      (.work job.task inputs x.goal attempt errors) r s'.toLedger → Q r s') :
    (perform x n job.task inputs tier attempt errors).wp (terms x permit (.job n)) Q s := by
  have hbody : ∀ (s : Run) (Q : Except Exc (Json × CallRecord) → Run → Prop),
      s.toLedger.Ok x permit → Climbing x n job inputs cs s.toLedger →
      (∀ r s', s'.toLedger.Ok x permit → Performed x n job inputs cs tier
        (.work job.task inputs x.goal attempt errors) r s'.toLedger → Q r s') →
      Coro.wp (terms x permit (.job n)) (do
        event x (.job n) (.taskStarted job.task.id tier attempt (x.model? tier))
        callWithRecord x (.job n) tier (.work job.task inputs x.goal attempt errors)) Q s := by
    intro s Q hok h hQ
    rw [Coro.wp_bind]
    refine wp_event hok fun r s' hr hok' hp => ?_
    have h' := h.of_rely hr
    cases r with
    | error e => exact hQ _ _ hok' (.stopped h' (.inl (by simpa using hp)))
    | ok a => exact wp_attempt_call hok' h' hn hQ
  unfold perform
  by_cases ht : tier = .cloud
  · rw [if_pos ht]
    exact hbody s Q hok h hQ
  · rw [if_neg ht]
    unfold withSlot
    rw [Coro.wp_bind]
    refine wp_ask hok fun s₁ m r s' hr hok' heq _ ha => ?_
    have h' := h.of_rely hr
    cases r with
    | error e =>
        refine hQ _ _ hok' (.stopped h' (.inl ?_))
        rcases answer_cases ha with ⟨-, -, -, he, -⟩ | ⟨-, -, ha⟩
        · cases he
          rfl
        · replace ha := (ordinary_eq_some ha).2
          split at ha <;> cases ha
    | ok a =>
        rw [Coro.outcome_ok, Coro.wp_tryFinally]
        refine hbody s' _ hok' h' fun r s'' hok'' hperf => ?_
        exact wp_update_of_eq rfl (hQ r _ hok'' hperf)

/-! ## Accepted work -/

theorem fresh_resolveRef (sources : Dict Str Str) (results : Dict Str Json) (ref : Str) :
    Fresh (resolveRef sources results ref) := by
  unfold resolveRef
  simp only
  repeat' split
  all_goals simp

theorem fresh_resolveInputs (sources : Dict Str Str) (results : Dict Str Json)
    (refs : List Str) (start : Inputs) : Fresh (resolveInputs sources results refs start) := by
  induction refs generalizing start with
  | nil => exact fresh_ok _
  | cons ref refs ih => exact (fresh_resolveRef sources results ref).bind fun v => ih _

/-- An error of a worker came out of a call of its own, if it came out of one. -/
theorem WorkerError.blames {n : ℕ} {job : Job} {e : Exc} (h : WorkerError x l n job e) :
    l.Blames (.job n) e := by
  cases h with
  | cancelled h => exact blames_of_none (h ▸ rfl)
  | call hcall hk hc hend hp =>
      intro k' hk'
      rw [hcall] at hk'
      cases hk'
      exact ⟨_, e, hk, hc, hend, hp⟩
  | refused _ hcall _ _ _ _ => exact blames_of_none hcall
  | exhausted he hi hlen hall => exact blames_of_none he.1
  | inputs hr hdeps _ h => exact blames_of_none (fresh_resolveInputs _ _ _ _ e h).1
  | check hi hlast hend h hcls => exact blames_of_none (fresh_validateResult _ _ _ e h).1

/-- Accepting a result is a step of its worker. -/
theorem Attempting.jobStep_accept (h : Attempting x n job inputs cs c l) (v : Json) :
    JobStep n l { l with results := l.results.set job.task.id v } where
  running := h.running
  calls j _ := .refl j l
  history := .refl l
  budget := .refl _
  grows k w hw := by
    rw [Dict.get?_set]
    by_cases hk : k = job.task.id
    · rw [hk, h.pending] at hw
      cases hw
    · rw [if_neg hk]
      exact hw
  others key hkey := by
    rw [Dict.get?_set, if_neg]
    exact fun hk => hkey job h.here hk.symm
  route := rfl
  verdicts := rfl
  skipped := rfl
  plan := rfl
  outcome := rfl
  jobs _ _ := rfl
  tasks := rfl
  batches := rfl

/-- The job of a worker that accepted the value of its last call. -/
theorem Attempting.jobOk_accept (h : Attempting x n job inputs cs c l) {v : Json}
    (hdeps : ∀ d ∈ job.task.dependsOn, d ∈ l.results.keys) (hv : c.ended = some (.ok v))
    (hvalid : validateResult job.task.resultType v inputs = .ok ()) :
    JobOk x { l with results := l.results.set job.task.id v } n job := by
  have hstep := h.jobStep_accept v
  have hinputs : ({ l with results := l.results.set job.task.id v } : Ledger).inputsOf x job.task =
      .ok inputs := inputsOf_of_grows hstep.grows h.resolved
  refine
    { deps := fun d hd => mem_keys_of_grows hstep.grows (hdeps d hd)
      ladder := .inr ⟨inputs, hinputs, ?_⟩
      accepted := fun w hw => ?_
      returned := fun w hw => ?_
      failed := fun e he => ?_
      unaccepted := fun e he => ?_ }
  · change Ladder x job.task inputs (l.mine (.job n))
    rw [h.mine]
    exact h.ladder
  · simp only [Dict.get?_set_self, Option.some.injEq] at hw
    subst hw
    refine ⟨inputs, c, hinputs, hvalid, ?_, hv⟩
    change (l.mine (.job n)).getLast? = some c
    rw [h.mine, List.getLast?_concat]
  · rw [h.fresh] at hw
    cases hw
  · rw [h.fresh] at he
    cases he
  · rw [h.fresh] at he
    cases he

theorem wp_accept {s : Run} {v : Json} {attempt : ℕ} {judgment : Option Judgment}
    {Q : Except Exc Json → Run → Prop} (hok : s.toLedger.Ok x permit)
    (h : Attempting x n job inputs cs c s.toLedger) (hv : c.ended = some (.ok v))
    (hvalid : validateResult job.task.resultType v inputs = .ok ())
    (hQ : ∀ r s', JobEnd x permit n job r s'.toLedger → Q r s') :
    Coro.wp (terms x permit (.job n)) (do
      Coro.update (Run.setResult job.task.id v)
      event x (.job n) (.taskCompleted job.task.id tier attempt judgment v)
      pure v) Q s := by
  have hstep := h.jobStep_accept v
  have hok' : Ledger.Ok x permit (s.setResult job.task.id v).toLedger := by
    refine hok.jobStep hstep (hok.calls.congr rfl rfl le_rfl) fun job' hj' => ?_
    have hj : job' = job := by
      have := h.here.symm.trans hj'
      exact (Option.some.inj this).symm
    subst hj
    exact h.jobOk_accept (hok.jobs n _ h.here).deps hv hvalid
  rw [Coro.wp_bind, Coro.wp_update]
  refine ⟨.inr hstep, ?_⟩
  rw [Coro.outcome_ok, Coro.wp_bind]
  refine wp_event hok' fun r s' hr hok'' hp => ?_
  have hr' := hr.2 (running_of_here h.here h.fresh)
  have hhere : s'.jobs[n]? = some job := hr'.job.trans h.here
  have hget : s'.results.get? job.task.id = some v := by
    rw [hr'.result job h.here]
    exact Dict.get?_set_self _ _ _
  cases r with
  | error e =>
      obtain rfl : e = cancelledError := by simpa using hp
      exact hQ _ _ (jobEnd_of_cancel hok'' hhere h.fresh)
  | ok a =>
      refine hQ _ _
        { ok := hok'', here := hhere, fresh := h.fresh
          returned := fun w hw => ?_, failed := fun e he => ?_, unaccepted := fun e he => ?_ }
      · cases hw
        exact hget
      · cases he
      · cases he

/-! ## The ladder -/

theorem wp_reportEscalation {s : Run} {previous : Tier} {attempt : ℕ} {errors : List Str}
    {Q : Except Exc Unit → Run → Prop} (hok : s.toLedger.Ok x permit)
    (hQ : Leaves (.job n) permit x s.toLedger Q) :
    (reportEscalation x n job.task tier previous attempt errors).wp
      (terms x permit (.job n)) Q s := by
  unfold reportEscalation
  split
  · exact wp_event hok hQ
  · exact hQ _ _ (.refl _ _) hok (passed_ok _)

/-- **The ladder.** By induction on the tiers that are left: every attempt fails and is one
more rung, is accepted, or ends the worker. -/
theorem wp_ladder {tiers : List Tier} {previous : Tier} {attempt : ℕ} {s : Run}
    {Q : Except Exc Json → Run → Prop} (hok : s.toLedger.Ok x permit)
    (h : Climbing x n job inputs cs s.toLedger)
    (htiers : x.policy.workerTiers job.task x.tiers =
      (x.policy.workerTiers job.task x.tiers).take cs.length ++ tiers)
    (hlen : cs.length ≤ (x.policy.workerTiers job.task x.tiers).length)
    (hattempt : attempt = cs.length + 1)
    (hQ : ∀ r s', JobEnd x permit n job r s'.toLedger → Q r s') :
    (ladder x n job.task inputs tiers attempt previous (failures job.task inputs cs)).wp
      (terms x permit (.job n)) Q s := by
  induction tiers generalizing cs previous attempt s with
  | nil =>
      have hall : cs.length = (x.policy.workerTiers job.task x.tiers).length := by
        have := congrArg List.length htiers
        rw [List.append_nil, List.length_take] at this
        omega
      refine hQ _ _
        (jobEnd_of_error hok h.here h.fresh
          (.exhausted (ofCheck_validationError _) h.resolved ?_ ?_) h.pending)
      · rw [h.mine, hall]
      · rw [h.mine]
        exact h.failed
  | cons tier tiers ih =>
      have hnext : (x.policy.workerTiers job.task x.tiers)[cs.length]? = some tier := by
        rw [htiers, List.getElem?_append_right (by rw [List.length_take]; omega)]
        rw [List.length_take, Nat.min_eq_left hlen, Nat.sub_self]
        rfl
      have hlt : cs.length < (x.policy.workerTiers job.task x.tiers).length :=
        (List.getElem?_eq_some_iff.mp hnext).1
      have hn : NextCall x n job inputs cs tier
          (.work job.task inputs x.goal attempt (failures job.task inputs cs)) :=
        ⟨by rw [hattempt], hnext⟩
      -- What follows an attempt that counts as failed.
      have hfail : ∀ (c : Call) (msg : Str) (judgment : Option Judgment) (s : Run),
          s.toLedger.Ok x permit → Attempting x n job inputs cs c s.toLedger →
          c.failure job.task inputs = some msg →
          Coro.wp (terms x permit (.job n)) (do
            event x (.job n) (.taskInvalid job.task.id tier attempt msg judgment)
            ladder x n job.task inputs tiers (attempt + 1) tier
              (failures job.task inputs cs ++ [msg])) Q s := by
        intro c msg judgment s hok h hmsg
        have hc := h.climb (by rw [hmsg]; rfl)
        rw [Coro.wp_bind]
        refine wp_event hok fun r s' hr hok' hp => ?_
        have hc' := hc.of_rely hr
        cases r with
        | error e =>
            obtain rfl : e = cancelledError := by simpa using hp
            exact hQ _ _ (jobEnd_of_cancel hok' hc'.here hc'.fresh)
        | ok a =>
            rw [Coro.outcome_ok, ← failures_append job.task inputs cs hmsg]
            refine ih hok' hc' ?_ ?_ ?_
            · rw [List.length_append, List.length_singleton, List.take_add_one, hnext,
                Option.toList_some, List.append_assoc]
              exact htiers
            · rw [List.length_append, List.length_singleton]
              omega
            · rw [List.length_append, List.length_singleton]
              omega
      unfold ladder
      rw [Coro.wp_bind]
      refine wp_reportEscalation hok fun r s' hr hok' hp => ?_
      have h' := h.of_rely hr
      cases r with
      | error e =>
          obtain rfl : e = cancelledError := by simpa using hp
          exact hQ _ _ (jobEnd_of_cancel hok' h'.here h'.fresh)
      | ok a =>
          rw [Coro.outcome_ok, Coro.wp_bind, Coro.wp_attempt]
          refine wp_perform hok' h' hn fun r s'' hok'' hperf => ?_
          rw [Coro.outcome_ok]
          cases hperf with
          | stopped h'' he =>
              rename_i e
              have hend : JobEnd x permit n job (.error e) s''.toLedger := by
                rcases he with rfl | ⟨hbud, hcall, href, rfl⟩
                · exact jobEnd_of_cancel hok'' h''.here h''.fresh
                · refine jobEnd_of_error hok'' h''.here h''.fresh
                    (.refused hbud hcall href h''.resolved ?_ ?_) h''.pending
                  · rw [h''.mine, hnext]
                  · rw [h''.mine]
                    exact h''.failed
              by_cases hbud : e.cls = .budget
              · simp only [hbud, if_true]
                exact hQ _ _ hend
              · have hrel : e.isRelayError = false := by
                  rcases he with rfl | he
                  · rfl
                  · exact absurd he.1 hbud
                simp only [hbud, hrel, if_false, Bool.false_eq_true]
                exact hQ _ _ hend
          | @made c k _ _ h'' hk hc hr =>
              cases r with
              | error e =>
                  obtain ⟨-, he⟩ := hr
                  have hthrough : (e.cls = .budget ∨ e.isRelayError = false) →
                      JobEnd x permit n job (.error e) s''.toLedger := by
                    intro hthrough
                    rcases he with rfl | ⟨hend, hcall⟩
                    · exact jobEnd_of_cancel hok'' h''.here h''.fresh
                    · refine jobEnd_of_error hok'' h''.here h''.fresh
                        (.call hcall hk hc.thread hend ?_) h''.pending
                      rw [hc.payload]
                      exact hthrough
                  by_cases hbud : e.cls = .budget
                  · simp only [hbud, if_true]
                    exact hQ _ _ (hthrough (.inl hbud))
                  · by_cases hrel : e.isRelayError = true
                    · simp only [hbud, hrel, if_false, if_true]
                      refine hfail c e.msg none s'' hok'' h'' ?_
                      rcases he with rfl | ⟨hend, -⟩
                      · cases hrel
                      · simp [Call.failure, hend, hrel, hbud]
                    · have hrel : e.isRelayError = false := by simpa using hrel
                      simp only [hbud, hrel, if_false, Bool.false_eq_true]
                      exact hQ _ _ (hthrough (.inr hrel))
              | ok vr =>
                  obtain ⟨v, record⟩ := vr
                  obtain ⟨hend, -⟩ := hr
                  simp only
                  cases hval : validateResult job.task.resultType v inputs with
                  | ok u => exact wp_accept hok'' h'' hend hval hQ
                  | error e =>
                      by_cases hcls : e.cls = .validation
                      · simp only [hcls, if_true]
                        refine hfail c e.msg _ s'' hok'' h'' ?_
                        simp [Call.failure, hend, hval, hcls]
                      · simp only [hcls, if_false]
                        refine hQ _ _ (jobEnd_of_error hok'' h''.here h''.fresh
                          (.check h''.resolved ?_ hend hval hcls) h''.pending)
                        rw [h''.mine, List.getLast?_concat]

/-! ## The worker -/

/-- A job that made no calls yet has no result yet. -/
theorem JobOk.pending (h : JobOk x l n job) (hm : l.mine (.job n) = []) :
    l.results.get? job.task.id = none := by
  cases hg : l.results.get? job.task.id with
  | none => rfl
  | some v =>
      obtain ⟨inputs, c, -, -, hlast, -⟩ := h.accepted v hg
      rw [hm] at hlast
      cases hlast

/-- The worker of a job, from its first turn on. -/
theorem wp_worker {s : Run} {Q : Except Exc Json → Run → Prop} (hok : s.toLedger.Ok x permit)
    (hm : s.toLedger.mine (.job n) = [])
    (hQ : ∀ job r s', JobEnd x permit n job r s'.toLedger → Q r s') :
    (worker x n).wp (terms x permit (.job n)) Q s := by
  unfold worker
  rw [Coro.wp_bind]
  refine wp_ask hok fun s₁ m r s' hr hok' heq _ ha => ?_
  have hm' : s'.toLedger.mine (.job n) = [] := hr.1.mine.trans hm
  have hrun : s'.toLedger.running n = true := by
    rw [heq]
    rcases answer_cases ha with ⟨-, -, hi, -, -⟩ | ⟨-, -, ha⟩
    · exact hi
    · replace ha := (ordinary_eq_some ha).2
      split at ha
      · assumption
      · cases ha
  obtain ⟨job, hj, hf⟩ := exists_of_running hrun
  cases r with
  | error e =>
      rcases answer_cases ha with ⟨-, -, -, he, -⟩ | ⟨-, -, ha⟩
      · cases he
        exact hQ _ _ _ (jobEnd_of_cancel hok' hj hf)
      · replace ha := (ordinary_eq_some ha).2
        split at ha
        · obtain ⟨_, -, ha⟩ := Option.map_eq_some_iff.mp ha
          cases ha
        · cases ha
  | ok task =>
      obtain rfl : task = job.task := by
        rcases answer_cases ha with ⟨-, -, -, he, -⟩ | ⟨-, -, ha⟩
        · cases he
        · replace ha := (ordinary_eq_some ha).2
          split at ha
          · obtain ⟨job', hj', ha⟩ := Option.map_eq_some_iff.mp ha
            cases ha
            have := hj'.symm.trans hj
            rw [Option.some.inj this]
          · cases ha
      rw [Coro.outcome_ok, Coro.wp_bind, Coro.wp_read, Coro.outcome_ok, Coro.wp_bind,
        Coro.wp_ofExcept]
      cases hin : resolveInputs x.sources s'.results job.task.inputRefs .empty with
      | error e =>
          have hjob := hok'.jobs n job hj
          exact hQ _ _ _ (jobEnd_of_error hok' hj hf (.inputs (.refl _) hjob.deps hm' hin)
            (hjob.pending hm'))
      | ok inputs =>
          have hjob := hok'.jobs n job hj
          have hclimb : Climbing x n job inputs [] s'.toLedger :=
            { here := hj, fresh := hf, resolved := hin, mine := hm', ladder := .nil _ _
              failed := by simp
              pending := hjob.pending hm' }
          exact wp_ladder hok' hclimb rfl (Nat.zero_le _) rfl fun r s'' => hQ job r s''

/-! ## The end of a worker -/

theorem endJob_toLedger (s : Run) (r : Except Exc Json) (hj : s.jobs[n]? = some job) :
    (s.endJob n r).toLedger =
      { s.toLedger with jobs := s.jobs.set n { job with outcome := some r } } := by
  simp only [Run.endJob, modify_eq_set _ hj]

/-- The reason of a failure is not about how the job is recorded. -/
theorem WorkerError.endJob {e : Exc} (h : WorkerError x l n job e) (jobs : List Job)
    (o : Option (Except Exc Json)) :
    WorkerError x { l with jobs } n { job with outcome := o } e := by
  cases h with
  | cancelled h => exact .cancelled h
  | call hcall hk hc hend hp => exact .call hcall hk hc hend hp
  | refused hbudget hcall h hi hrung hall => exact .refused hbudget hcall h hi hrung hall
  | exhausted he hi hlen hall => exact .exhausted he hi hlen hall
  | inputs hr hdeps hmine h => exact .inputs hr hdeps hmine h
  | check hi hlast hend h hcls => exact .check hi hlast hend h hcls

/-- A worker's end leaves the records fine. -/
theorem JobEnd.finish {r : Except Exc Json} (h : JobEnd x permit n job r l) :
    JobStep n l { l with jobs := l.jobs.set n { job with outcome := some r } } ∧
      Ledger.Ok x permit { l with jobs := l.jobs.set n { job with outcome := some r } } := by
  have hlt := (List.getElem?_eq_some_iff.mp h.here).1
  have htasks : (l.jobs.set n { job with outcome := some r }).map Job.task =
      l.jobs.map Job.task := by
    have hlt' : n < (l.jobs.map Job.task).length := by simpa using hlt
    have hget : (l.jobs.map Job.task)[n] = job.task := by
      rw [List.getElem_map, (List.getElem?_eq_some_iff.mp h.here).2]
    rw [List.map_set, ← hget, List.set_getElem_self]
  have hstep : JobStep n l { l with jobs := l.jobs.set n { job with outcome := some r } } :=
    { running := running_of_here h.here h.fresh
      calls := fun j _ => .refl j l
      history := .refl l
      budget := .refl _
      grows := .refl _
      others := fun _ _ => rfl
      route := rfl, verdicts := rfl, skipped := rfl, plan := rfl, outcome := rfl
      jobs := fun m hm => List.getElem?_set_ne (Ne.symm hm)
      tasks := htasks
      batches := rfl }
  refine ⟨hstep, h.ok.jobStep hstep
    (h.ok.calls.congr rfl rfl (by simp)) fun job' hj' => ?_⟩
  have hjob := h.ok.jobs n job h.here
  rw [List.getElem?_set_self hlt] at hj'
  cases hj'
  exact
    { deps := hjob.deps, ladder := hjob.ladder, accepted := hjob.accepted
      returned := fun v hv => h.returned v (Option.some.inj hv)
      failed := fun e he => (h.failed e (Option.some.inj he)).endJob _ _
      unaccepted := fun e he => h.unaccepted e (Option.some.inj he) }

end HorizonRelay
