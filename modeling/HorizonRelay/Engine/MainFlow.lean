import HorizonRelay.Engine.Keeps

/-!
# The main flow before a decision

While no worker runs nobody else touches the records, so the main flow is sequential there.
`Undecided` says where it is among the slots of the schedule before an answer is trusted.

## Main definitions

* `Idle` — no job is running.
* `MainCall` — a call the main flow may make next.
* `Undecided` — no answer has been trusted yet.
* `Stopped` — an error left the main flow.

## Main results

* `wp_event_idle`, `wp_call_idle` — the rules of the main flow while no job runs.
* `Undecided.withCall` — a local call before a decision.
-/

namespace HorizonRelay

open Py Coop

variable {x : Setup} {permit : Permit} {l l' : Ledger}

/-! ## While no job runs -/

/-- No job is running. -/
def Idle (l : Ledger) : Prop := ∀ n, l.running n = false

theorem idle_of_jobs_nil (h : l.jobs = []) : Idle l := by
  intro n
  simp [Ledger.running, h]

/-- Nothing happens to the records while the main flow reports an event. -/
theorem wp_event_idle {data : EventData} {done : Bool} {s : Run}
    {Q : Except Exc Unit → Run → Prop} (hok : s.toLedger.Ok x permit) (hi : Idle s.toLedger)
    (hQ : ∀ r s', s'.toLedger = s.toLedger → Passed r → Q r s') :
    (event x .main data done).wp (terms x permit .main) Q s :=
  wp_event hok fun r s' hr _ hp => hQ r s' (hr.idle hi) hp

/-- A model call of the main flow while no job runs: it is refused, or it is added to the
records and ends. -/
theorem wp_callWithRecord_idle {tier : Tier} {p : Payload} {s : Run}
    {Q : Except Exc (Json × CallRecord) → Run → Prop} (hi : Idle s.toLedger)
    (fits : ∀ b c, charge x tier p.operation s.budget = .ok b → c.MadeBy .main tier p →
      c.Permitted permit → (s.toLedger.withCall b c).Ok x permit)
    (refused : ∀ e, charge x tier p.operation s.budget = .error e → Q (.error e) s)
    (made : ∀ b c r s', charge x tier p.operation s.budget = .ok b → c.MadeBy .main tier p →
      c.Permitted permit → c.EndedAs s.calls.length r →
      s'.toLedger = s.toLedger.withCall b c → Q r s') :
    (callWithRecord x .main tier p).wp (terms x permit .main) Q s := by
  have hidle : ∀ b c, Idle (s.toLedger.withCall b c) := fun b c => hi
  refine wp_callWithRecord ⟨trivial, ?_, ?_⟩ refused ?_
  · intro b c hb hc hnone
    refine fits b c hb hc fun r hr => ?_
    rw [hnone] at hr
    cases hr
  · intro b c l' c' hb hc hr hok hc' _ hp
    rw [hr.idle (hidle b c), putCall_withCall]
    exact fits b c' hb hc' hp
  · intro b c r s' hb hm hp hend
    exact made b c r s' hb hm.made hp hend (hm.rely.idle (hidle b c))

/-- The same, for the call's value. -/
theorem wp_call_idle {tier : Tier} {p : Payload} {s : Run}
    {Q : Except Exc Json → Run → Prop} (hi : Idle s.toLedger)
    (fits : ∀ b c, charge x tier p.operation s.budget = .ok b → c.MadeBy .main tier p →
      c.Permitted permit → (s.toLedger.withCall b c).Ok x permit)
    (refused : ∀ e, charge x tier p.operation s.budget = .error e → Q (.error e) s)
    (made : ∀ b c r s', charge x tier p.operation s.budget = .ok b → c.MadeBy .main tier p →
      c.Permitted permit → c.EndedWith s.calls.length r →
      s'.toLedger = s.toLedger.withCall b c → Q r s') :
    (call x .main tier p).wp (terms x permit .main) Q s := by
  unfold call
  rw [Coro.wp_bind]
  refine wp_callWithRecord_idle hi fits refused fun b c r s' hb hc hp hend hl => ?_
  cases r with
  | ok vr => exact made b c (.ok vr.1) s' hb hc hp hend.1 hl
  | error e => exact made b c (.error e) s' hb hc hp hend hl

/-- A step of the main flow that leaves calls, results and jobs alone. -/
theorem mainStep_of_eq (hc : l'.calls = l.calls) (hb : l'.budget = l.budget)
    (hr : l'.results = l.results) (hj : l'.jobs = l.jobs)
    (hp : ∀ p, l.plan = some p → l'.plan = some p) : MainStep l l' where
  calls j _ := by
    intro k c _
    rw [hc]
  history k c h := ⟨c, by rw [hc, h], rfl, rfl, rfl, fun _ h => h⟩
  budget := by
    rw [hb]
    exact .refl _
  grows := by
    rw [hr]
    exact .refl _
  busy _ := hr
  plan := hp
  jobs := ⟨[], by rw [hj, List.append_nil]⟩

theorem jobRely_of_eq {n : ℕ} (hc : SameCalls (.job n) l l') (hb : l.budget.Grown l'.budget)
    (hr : l'.results = l.results) (hj : l'.jobs[n]? = l.jobs[n]?) : JobRely n l l' where
  job := hj
  calls := hc
  budget := hb
  grows := by
    rw [hr]
    exact .refl _
  result _ _ := by rw [hr]

/-! ## Calls of the main flow -/

/-- A call the main flow may make next. -/
structure MainCall (x : Setup) (tier : Tier) (p : Payload) (l : Ledger) : Prop where
  slot : ((l.mine .main).map Call.slot ++ [p.slot]).Sublist x.schedule
  onTier : x.tierOf p = some tier
  fits : x.FitsMode p
  unjudged : ∀ t, p.forTier = some t → ∀ v ∈ l.verdicts, v.tier ≠ t
  unrouted : ∀ t, p.forTier = some t → l.route = none
  free : ∀ t, l.route = some t → t ≠ .cloud → tier ≠ .cloud
  synthesis : ∀ goal sources instruction results,
    p = .synthesize goal sources instruction results →
    ∃ q, l.plan = some q ∧ Grows results l.results ∧ ∀ t ∈ q.tasks, t.id ∈ results.keys
  unplanned : p.operation = .answer → l.plan = none

theorem mine_withCall_main {b : CloudBudget} {c : Call} (hc : c.thread = .main) :
    (l.withCall b c).mine .main = l.mine .main ++ [c] := by
  rw [← hc, mine_withCall]

/-- The records stay fine with the call in them. -/
theorem Ledger.Ok.withMainCall (h : l.Ok x permit) (hout : l.outcome = none) {tier : Tier}
    {p : Payload} (hm : MainCall x tier p l) {b : CloudBudget} {c : Call}
    (hb : charge x tier p.operation l.budget = .ok b) (hc : c.MadeBy .main tier p)
    (hp : c.Permitted permit) : (l.withCall b c).Ok x permit := by
  have hmine := mine_withCall_main (l := l) (b := b) hc.thread
  have hslot : c.slot = p.slot := congrArg Payload.slot hc.payload
  have hmem : ∀ d ∈ (l.withCall b c).mine .main, d ∈ l.mine .main ∨ d = c := by
    intro d hd
    rw [hmine] at hd
    simpa using hd
  refine
    { calls := h.calls.withCall hb hc hp (.inl rfl)
      main := ?_, plan := ?_, jobs := ?_, ended := ?_ }
  · refine
      { schedule := ?_, tiers := ?_, fits := ?_, distrusted := ?_, heard := ?_
        judged := h.main.judged, escalates := h.main.escalates, trusted := ?_, free := ?_
        cloud := h.main.cloud }
    · rw [hmine, List.map_append, List.map_singleton, hslot]
      exact hm.slot
    · intro d hd
      rcases hmem d hd with hd | rfl
      · exact h.main.tiers d hd
      · rw [hc.payload, hc.tier, hm.onTier]
    · intro d hd
      rcases hmem d hd with hd | rfl
      · exact h.main.fits d hd
      · rw [hc.payload]
        exact hm.fits
    · intro hdef d hd t e ht he v hv hvt
      rcases hmem d hd with hd | rfl
      · exact h.main.distrusted hdef d hd t e ht he v hv hvt
      · rw [hc.payload] at ht
        exact absurd hvt (hm.unjudged t ht v hv)
    · intro hroute d hd t ht
      rcases hmem d hd with hd | rfl
      · exact h.main.heard hroute d hd t ht
      · have hroute : l.route.isSome := hroute
        rw [hc.payload] at ht
        rw [hm.unrouted t ht] at hroute
        cases hroute
    · intro t ht hne
      rcases h.main.trusted t ht hne with ⟨a, d, v, hd, h⟩ | h
      · refine .inl ⟨a, d, v, ?_, h⟩
        rw [hmine]
        exact List.mem_append_left _ hd
      · exact .inr h
    · intro t ht hne d hd
      rcases List.mem_append.mp hd with hd | hd
      · exact h.main.free t ht hne d hd
      · rw [List.mem_singleton.mp hd, hc.tier]
        exact hm.free t ht hne
  · refine
      { batches := h.plan.batches, none := h.plan.none, accepted := h.plan.accepted
        routed := h.plan.routed, tasks := h.plan.tasks, ids := h.plan.ids, keys := h.plan.keys
        extracted := fun hplan k hk => ?_, synthesized := ?_, unanswered := ?_ }
    · obtain ⟨a, d, v, hd, h⟩ := h.plan.extracted hplan k hk
      exact ⟨a, d, v, by rw [hmine]; exact List.mem_append_left _ hd, h⟩
    · intro d hd goal sources instruction results hpay
      rcases List.mem_append.mp hd with hd | hd
      · exact h.plan.synthesized d hd goal sources instruction results hpay
      · rw [List.mem_singleton.mp hd, hc.payload] at hpay
        exact hm.synthesis _ _ _ _ hpay
    · intro hplan d hd hop
      have hplan : l.plan.isSome := hplan
      rcases List.mem_append.mp hd with hd | hd
      · exact h.plan.unanswered hplan d hd hop
      · rw [List.mem_singleton.mp hd, hc.payload] at hop
        rw [hm.unplanned hop] at hplan
        cases hplan
  · intro n job hj
    refine (h.jobs n job hj).of_rely hj (jobRely_of_eq ?_ (grown_of_charge hb) rfl rfl)
    exact sameCalls_withCall (by rw [hc.thread]; simp)
  · intro o ho
    have ho : l.outcome = some o := ho
    rw [hout] at ho
    cases ho

/-- Changes to what the main flow alone keeps. -/
theorem Ledger.Ok.withMain (h : l.Ok x permit) (hout : l.outcome = none) (hplan : l.plan = none)
    (hl : l' = { l with route := l'.route, verdicts := l'.verdicts, skipped := l'.skipped })
    (hmain : MainOk x l') : l'.Ok x permit := by
  rw [hl] at hmain ⊢
  refine
    { calls := h.calls.congr rfl rfl le_rfl
      main := hmain
      plan :=
        { batches := h.plan.batches, none := h.plan.none, accepted := h.plan.accepted
          routed := fun p hp => by rw [show l.plan = some p from hp] at hplan; cases hplan
          tasks := h.plan.tasks, ids := h.plan.ids, keys := h.plan.keys
          extracted := h.plan.extracted
          synthesized := h.plan.synthesized, unanswered := h.plan.unanswered }
      jobs := fun n job hj => (h.jobs n job hj).of_rely hj
        (jobRely_of_eq (.refl _ l) (.refl _) rfl rfl)
      ended := fun o ho => ?_ }
  have ho : l.outcome = some o := ho
  rw [hout] at ho
  cases ho

/-! ## Before a decision -/

/-- The main flow has trusted no answer yet: its calls are among the slots `pre`, all of
them local and about the tiers `seen`. -/
structure Undecided (x : Setup) (permit : Permit) (pre : List Slot) (seen : List Tier)
    (l : Ledger) : Prop where
  ok : l.Ok x permit
  jobs : l.jobs = []
  plan : l.plan = none
  route : l.route = none
  outcome : l.outcome = none
  results : l.results = .empty
  slots : ((l.mine .main).map Call.slot).Sublist pre
  free : ∀ c ∈ l.calls, c.record.tier ≠ .cloud
  about : ∀ c ∈ l.mine .main, ∀ t, c.payload.forTier = some t → t ∈ seen
  escalated : ∀ v ∈ l.verdicts, v.escalate = true

variable {pre : List Slot} {seen : List Tier}

theorem Undecided.idle (h : Undecided x permit pre seen l) : Idle l := idle_of_jobs_nil h.jobs

theorem Undecided.mono (h : Undecided x permit pre seen l) {pre' : List Slot}
    {seen' : List Tier} (hpre : pre.Sublist pre') (hseen : seen ⊆ seen') :
    Undecided x permit pre' seen' l :=
  { h with
    slots := h.slots.trans hpre
    about := fun c hc t ht => hseen (h.about c hc t ht) }

/-- The tiers skipped and judged so far. -/
def Ledger.judgedTiers (l : Ledger) : List Tier := l.skipped ++ l.verdicts.map Verdict.tier

/-- Only the cloud's calls depend on whether it plans. -/
theorem fitsMode_of_local {tier : Tier} {p : Payload} (h : x.tierOf p = some tier)
    (hlocal : tier ≠ .cloud) : x.FitsMode p := by
  cases p with
  | answer => exact absurd (Option.some.inj h).symm hlocal
  | plan => exact absurd (Option.some.inj h).symm hlocal
  | _ => trivial

/-- A local call before a decision. -/
theorem Undecided.withCall (h : Undecided x permit pre seen l) {tier : Tier} {p : Payload}
    (hslot : (pre ++ [p.slot]).Sublist x.schedule) (htier : x.tierOf p = some tier)
    (hlocal : tier ≠ .cloud) (hseen : ∀ t, p.forTier = some t → t ∈ seen)
    (hunjudged : ∀ t, p.forTier = some t → ∀ v ∈ l.verdicts, v.tier ≠ t)
    (hsyn : p.operation ≠ .synthesize) {b : CloudBudget} {c : Call}
    (hb : charge x tier p.operation l.budget = .ok b) (hc : c.MadeBy .main tier p)
    (hp : c.Permitted permit) : Undecided x permit (pre ++ [p.slot]) seen (l.withCall b c) := by
  have hmine := mine_withCall_main (l := l) (b := b) hc.thread
  have hcslot : c.slot = p.slot := congrArg Payload.slot hc.payload
  have hslots : ((l.mine .main).map Call.slot ++ [p.slot]).Sublist (pre ++ [p.slot]) :=
    h.slots.append (.refl _)
  refine
    { ok := h.ok.withMainCall h.outcome ⟨hslots.trans hslot, htier,
        fitsMode_of_local htier hlocal, hunjudged, fun _ _ => h.route, ?_, ?_,
        fun _ => h.plan⟩ hb hc hp
      jobs := h.jobs, plan := h.plan, route := h.route, outcome := h.outcome
      results := h.results, slots := ?_, free := ?_, about := ?_
      escalated := h.escalated }
  · intro t ht
    rw [h.route] at ht
    cases ht
  · rintro _ _ _ _ rfl
    exact absurd rfl hsyn
  · rw [hmine, List.map_append, List.map_singleton, hcslot]
    exact hslots
  · intro d hd
    rcases List.mem_append.mp hd with hd | hd
    · exact h.free d hd
    · rw [List.mem_singleton.mp hd, hc.tier]
      exact hlocal
  · intro d hd t ht
    rw [hmine] at hd
    rcases List.mem_append.mp hd with hd | hd
    · exact h.about d hd t ht
    · rw [List.mem_singleton.mp hd, hc.payload] at ht
      exact hseen t ht

/-- An error left the main flow: it came out of a call that lets it through, unless a rule
of the policy raised it. -/
structure Stopped (x : Setup) (permit : Permit) (e : Exc) (l : Ledger) : Prop where
  ok : l.Ok x permit
  idle : Idle l
  outcome : l.outcome = none
  blames : x.policy.DefaultRules → ∃ i, l.Blames i e
  planned : l.plan.isSome → PlanError x l e

theorem Undecided.stopped (h : Undecided x permit pre seen l) {e : Exc}
    (he : x.policy.DefaultRules → ∃ i, l.Blames i e) : Stopped x permit e l where
  ok := h.ok
  idle := h.idle
  outcome := h.outcome
  blames := he
  planned hp := by
    rw [h.plan] at hp
    cases hp

theorem blames_fresh {e : Exc} (h : e.call = none) : ∃ i, l.Blames i e :=
  ⟨.main, blames_of_none h⟩

/-- The error of a call that lets it through. -/
theorem blames_of_ended {tier : Tier} {p : Payload} {b : CloudBudget} {c : Call} {e : Exc}
    (hc : c.MadeBy .main tier p) (hend : c.EndedWith l.calls.length (.error e))
    (hp : p.letsThrough e ∨ e = cancelledError) : ∃ i, (l.withCall b c).Blames i e := by
  rcases hend.2 with rfl | ⟨hend, hcall⟩
  · exact blames_fresh rfl
  · rcases hp with hp | rfl
    · refine ⟨.main, fun k hk => ?_⟩
      rw [hcall] at hk
      cases hk
      exact ⟨c, e, withCall_getElem? l b c, hc.thread, hend, hc.payload ▸ hp⟩
    · exact blames_fresh rfl

end HorizonRelay
