import HorizonRelay.Runs.Bounds
import HorizonRelay.Runs.Routing

/-!
# Failures of local models

A local model's failure is borne: the run goes on with the next model, the next rung of a
ladder, or the cloud.  It is not so for every failure.  `bearable` says for which: a time
limit, an extraction that raises and a `BudgetError` out of local work end the run.

## Main definitions

* `Call.FailedLocally` — a call on a local tier failed.
* `bearable` — the failures a run bears.
* `FailuresBorne` — what bearing them means.

## Main results

* `failures_borne` — every run whose local failures are bearable bears them.
* `failure_fatal_timeout` — a time limit on a local call is fatal.
-/

namespace HorizonRelay

open Py Coop

variable {x : Setup} {permit : Permit} {l : Ledger}

/-- A call on a local tier raised an error of the relay, or exceeded its time limit. -/
def Call.FailedLocally (c : Call) : Prop :=
  c.record.tier ≠ .cloud ∧
    ∃ e, c.ended = some (.error e) ∧ (e.isRelayError = true ∨ e.cls = .timeout)

/-- No local call exceeds its time limit, no extraction raises an error of the relay, and no
local work a `BudgetError`. -/
def bearable : Permit
  | tier, p, .error e => tier ≠ .cloud →
      e.cls ≠ .timeout ∧ (p.operation = .attempt → e.isRelayError = false) ∧
        (p.operation = .work → e.cls ≠ .budget)
  | _, _, .ok _ => True

instance (tier : Tier) (p : Payload) (r : Except Exc Json) : Decidable (bearable tier p r) :=
  match r with
  | .error e => inferInstanceAs (Decidable (tier ≠ .cloud →
      e.cls ≠ .timeout ∧ (p.operation = .attempt → e.isRelayError = false) ∧
        (p.operation = .work → e.cls ≠ .budget)))
  | .ok _ => inferInstanceAs (Decidable True)

/-- The run goes on after the failures of local models. -/
structure FailuresBorne (x : Setup) (l : Ledger) : Prop where
  /-- A model one of whose answers or critiques failed has an escalating verdict, once a
  route is chosen. -/
  judged : ∀ c ∈ l.calls, c.FailedLocally → ∀ t, c.payload.forTier = some t →
    (∀ v ∈ l.verdicts, v.tier = t → v.escalate = true) ∧
      (l.route.isSome → ∃ v ∈ l.verdicts, v.tier = t ∧ v.escalate = true)
  /-- Failed work is recorded, and followed by the next rung of the ladder. -/
  ladder : ∀ (n : ℕ) (job : Job), l.jobs[n]? = some job → l.mine (.job n) = [] ∨
    ∃ inputs, l.inputsOf x job.task = .ok inputs ∧ Ladder x job.task inputs (l.mine (.job n))
  /-- A worker stops at failed work only where the ladder ends, when the budget refuses the
  next call, or when it is cancelled. -/
  worked : ∀ (n : ℕ) (job : Job) (c : Call) (e : Exc), l.jobs[n]? = some job →
    (l.mine (.job n)).getLast? = some c → c.FailedLocally → job.outcome = some (.error e) →
    e = cancelledError ∨ l.budget.Refuses x.limits .work ∨
      (l.mine (.job n)).length = (x.policy.workerTiers job.task x.tiers).length
  /-- The error a run ends with is not that of such a call. -/
  ended : ∀ e, l.outcome = some (.error e) → ∀ (k : ℕ) (c : Call), e.call = some k →
    l.calls[k]? = some c → ¬ c.FailedLocally

/-- What a call site lets through is not what a local call is allowed to fail with. -/
theorem Ledger.Ok.not_failedLocally (h : l.Ok x bearable) {c : Call} (hc : c ∈ l.calls)
    {e : Exc} (hend : c.ended = some (.error e)) (hp : c.payload.letsThrough e) :
    ¬ c.FailedLocally := by
  rintro ⟨hlocal, e', hend', hfail⟩
  rw [hend] at hend'
  cases hend'
  obtain ⟨htime, hextract, hbudget⟩ := h.calls.permitted c hc _ hend hlocal
  have hcloud : x.tierOf c.payload = some .cloud → c.payload.operation ≠ .work → False := by
    intro htier hop
    rw [h.main.tiers c (h.mem_main hc hop)] at htier
    exact hlocal (Option.some.inj htier)
  have hrel : e.isRelayError = true := hfail.resolve_right htime
  cases hpay : c.payload with
  | attempt goal sources =>
      rw [hpay] at hextract
      rw [hextract rfl] at hrel
      cases hrel
  | solve task temperature attempt tier | critique task answer attempt tier =>
      rw [hpay] at hp
      rw [show e.isRelayError = false from hp] at hrel
      cases hrel
  | work task inputs goal attempt errors =>
      rw [hpay] at hp hbudget
      rcases hp with hp | hp
      · exact hbudget rfl hp
      · rw [hp] at hrel
        cases hrel
  | answer | plan | synthesize =>
      exact hcloud (by rw [hpay]; rfl) (by simp [hpay, Payload.operation])

/-- The call a worker's error came out of is the worker's last. -/
theorem JobOk.getLast?_of_letsThrough {n : ℕ} {job : Job} (h : JobOk x l n job) {c : Call}
    (hc : c ∈ l.mine (.job n)) {e : Exc} (hend : c.ended = some (.error e))
    (hp : c.payload.letsThrough e) : (l.mine (.job n)).getLast? = some c := by
  obtain ⟨i, hi⟩ := List.mem_iff_getElem?.mp hc
  rcases h.ladder with hnil | ⟨inputs, -, hladder⟩
  · rw [hnil] at hc
    cases hc
  · have hlt := (List.getElem?_eq_some_iff.mp hi).1
    by_cases hlast : i + 1 < (l.mine (.job n)).length
    · have hfail := hladder.failed i c hi hlast
      rw [hladder.payload i c hi] at hp
      rcases hp with hp | hp <;> simp [Call.failure, hend, hp] at hfail
    · rw [List.getLast?_eq_getElem?, ← hi]
      congr 1
      omega

theorem Ledger.Ok.failuresBorne (h : l.Ok x bearable) (hdef : x.policy.DefaultRules) :
    FailuresBorne x l := by
  refine
    { judged := fun c hc hfail t ht => ?_, ladder := fun n job hj => (h.jobs n job hj).ladder
      worked := fun n job c e hj hlast hfail he => ?_, ended := fun e he k c hk hc => ?_ }
  · obtain ⟨-, e, hend, -⟩ := id hfail
    have hmain : c ∈ l.mine .main := by
      refine h.mem_main hc fun hop => ?_
      cases hp : c.payload <;> simp [hp, Payload.forTier, Payload.operation] at ht hop
    have hesc := h.main.distrusted hdef c hmain t e ht hend
    refine ⟨hesc, fun hroute => ?_⟩
    obtain ⟨v, hv, hvt⟩ := List.mem_map.mp (h.main.heard hroute c hmain t ht)
    exact ⟨v, hv, hvt, hesc v hv hvt⟩
  · have hjob := h.jobs n job hj
    cases hjob.failed e he with
    | cancelled h => exact .inl h
    | refused _ _ h => exact .inr (.inl h)
    | exhausted _ _ hlen _ => exact .inr (.inr hlen)
    | @call k c' hcall hk hc hend hp =>
        have hmem : c' ∈ l.mine (.job n) :=
          List.mem_filter.mpr ⟨List.mem_of_getElem? hk, decide_eq_true hc⟩
        have := hjob.getLast?_of_letsThrough hmem hend hp
        obtain rfl := Option.some.inj (hlast.symm.trans this)
        exact absurd hfail (h.not_failedLocally (List.mem_of_getElem? hk) hend hp)
    | inputs _ _ hmine _ =>
        rw [hmine] at hlast
        cases hlast
    | check _ hlast' hend _ _ =>
        obtain rfl := Option.some.inj (hlast.symm.trans hlast')
        obtain ⟨-, e', hend', -⟩ := hfail
        rw [hend] at hend'
        cases hend'
  · obtain ⟨i, hblame⟩ := (h.ended _ he).blames hdef e rfl
    obtain ⟨c', e', hc', -, hend, hp⟩ := hblame k hk
    obtain rfl := Option.some.inj (hc.symm.trans hc')
    exact h.not_failedLocally (List.mem_of_getElem? hc) hend hp

/-- **A local model's failure is never fatal by itself**, in runs of the default rules whose
local failures are bearable. -/
theorem failures_borne {c : State} (h : x.system.Reach {} (Admits bearable) c)
    (hdef : x.policy.DefaultRules) : FailuresBorne x c.shared.toLedger :=
  (ok_of_reach h).failuresBorne hdef

theorem failures_borne_planRun : ∃ c : State, FailuresBorne planSetup c.shared.toLedger ∧
    (c.shared.calls.countP fun d => d.record.tier ≠ .cloud) = 3 := by
  obtain ⟨c, hc, h⟩ := exists_reach_of_admitted (x := planSetup) bearable planRun
    (p := fun c => (c.shared.calls.countP fun d => d.record.tier ≠ .cloud) = 3)
    (by decide +kernel)
  exact ⟨c, failures_borne hc rfl, by simpa using h⟩

/-- A local model exceeds the time limit of its call. -/
def timeoutRun : List (Label Thread Choice Move) :=
  [.resume .main .go, .resume .main .timeout]

/-- A time limit on a local call is fatal: the run ends with the error of that call. -/
theorem failure_fatal_timeout : ∃ (c : State) (e : Exc) (k : ℕ) (d : Call),
    planSetup.Reachable c ∧ planSetup.policy.DefaultRules ∧
      planSetup.limits.cloudEnabled = true ∧ c.shared.outcome = some (.error e) ∧
      e.call = some k ∧ c.shared.calls[k]? = some d ∧ d.FailedLocally := by
  obtain ⟨c, hc, h⟩ := System.exists_reach_of_steps (S := planSetup.system) (s := {}) timeoutRun
    (p := fun c => c.shared.toLedger.failed fun e => e.call = some 0 &&
      (c.shared.calls[0]?).any fun d => d.record.tier = .small && d.failedWith fun e =>
        e.cls = .timeout)
    (by decide +kernel)
  obtain ⟨e, he, h⟩ := Ledger.exists_of_failed h
  simp only [Bool.and_eq_true, decide_eq_true_eq] at h
  obtain ⟨d, hd, h'⟩ := Option.any_eq_true _ _ |>.mp h.2
  simp only [Bool.and_eq_true, decide_eq_true_eq] at h'
  obtain ⟨e', he', hcls⟩ := Call.exists_of_failedWith h'.2
  exact ⟨c, e, 0, d, hc, rfl, rfl, he, h.1, hd, by simp [h'.1], e', he', .inr (by simpa using hcls)⟩

end HorizonRelay
