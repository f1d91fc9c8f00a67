import HorizonRelay.Engine.Planning

/-!
# One request

The main flow as a whole: an exact extraction, the local models, the cloud, and the
handlers of a run around them.  Whichever way it goes, it ends in a `MainEnd`.

## Main definitions

* `Concluded` — an answer was reached.
* `Failing` — an error is on its way to the handlers.
* `MainEnd` — what holds where the caller's task ends.

## Main results

* `wp_execute` — an answer, or an error that left the main flow.
* `wp_run` — the caller's task ends in a `MainEnd`.
-/

namespace HorizonRelay

open Py Coop

variable {x : Setup} {permit : Permit} {l l' : Ledger}

/-- An answer was reached. -/
structure Concluded (x : Setup) (permit : Permit) (content : Str) (l : Ledger) : Prop where
  ok : l.Ok x permit
  idle : Idle l
  outcome : l.outcome = none
  routed : l.route.isSome
  content : ∀ t, l.route = some t → t ≠ .cloud →
    (∃ a, l.Extracted x a ∧ content = x.label a) ∨
    ∃ v, l.verdicts.getLast? = some v ∧ content = x.label v.answer
  synthesized : l.plan.isSome → ∃ c ∈ l.calls, c.payload.operation = .synthesize

theorem Decided.concluded {content : Str} (h : Decided x permit content l) :
    Concluded x permit content l where
  ok := h.ok
  idle := h.idle
  outcome := h.outcome
  routed := by
    obtain ⟨t, ht, -⟩ := h.route
    rw [ht]
    rfl
  content _ _ _ := h.content
  synthesized hp := by
    rw [h.plan] at hp
    cases hp

/-! ## The cloud's answer -/

/-- The cloud's answer is a text, or refused by a check. -/
theorem wp_finalAnswer {v : Json} {refusal : String} {s : Run}
    {Q : Except Exc Str → Run → Prop} (ok : ∀ content, Q (.ok content) s)
    (error : ∀ e, e.OfCheck → Q (.error e) s) :
    (finalAnswer x v refusal).wp (terms x permit .main) Q s := by
  unfold finalAnswer
  split
  · split
    · exact error _ (ofCheck_validationError _)
    · exact ok _
  · exact error _ (ofCheck_validationError _)

theorem InCloud.concluded {pre : List Slot} (h : InCloud x permit pre l) (content : Str) :
    Concluded x permit content l where
  ok := h.ok
  idle := h.idle
  outcome := h.outcome
  routed := by
    rw [h.route]
    rfl
  content t ht hne := by
    rw [h.route] at ht
    exact absurd (Option.some.inj ht).symm hne
  synthesized hp := by
    rw [h.plan] at hp
    cases hp

theorem answer_sublist : (x.localSlots ++ [Slot.answer]).Sublist x.schedule := by
  refine (List.Sublist.refl _).append ?_
  rw [Setup.cloudSlots, List.cons_append]
  exact List.Sublist.cons_cons _ (List.nil_sublist _)

theorem wp_answerDirectly {context : List LocalAttempt} {s : Run}
    {Q : Except Exc Str → Run → Prop} (h : InCloud x permit x.localSlots s.toLedger)
    (hplans : x.policy.plans x.lib x.text = false)
    (ok : ∀ content s', Concluded x permit content s'.toLedger → Q (.ok content) s')
    (stop : ∀ e s', Stopped x permit e s'.toLedger → Q (.error e) s') :
    (answerDirectly x context).wp (terms x permit .main) Q s := by
  unfold answerDirectly
  rw [Coro.wp_bind]
  refine wp_event_idle h.ok h.idle fun r s₁ hl hp => ?_
  rw [← hl] at h
  cases r with
  | error e =>
      obtain rfl : e = cancelledError := by simpa using hp
      exact stop _ s₁ (h.stopped (blames_fresh rfl))
  | ok _ =>
      rw [Coro.outcome_ok, Coro.wp_bind]
      refine wp_call_inCloud h answer_sublist rfl hplans rfl (by simp [Payload.operation])
        (fun _ => trivial) (fun v s₂ h₂ => ?_) stop
      exact wp_finalAnswer (fun content => ok content s₂ (h₂.concluded content))
        fun e he => stop e s₂ (h₂.stopped (blames_fresh he.1))

/-- The synthesis of an accepted plan whose tasks are all in the results. -/
theorem Scheduled.mainCall {p : Plan} (h : Scheduled x permit p [] l) :
    MainCall x .cloud (.synthesize x.goal x.sources p.finalInstruction l.results) l where
  slot := by
    exact (h.slots.append (.refl _)).trans planSlots_synthesize_sublist
  onTier := rfl
  fits := trivial
  unjudged t ht := by cases ht
  unrouted t ht := by cases ht
  free t ht hne := by
    rw [h.ok.plan.routed p h.plan] at ht
    exact absurd (Option.some.inj ht).symm hne
  synthesis goal sources instruction results hp := by
    cases hp
    exact ⟨p, h.plan, .refl _, fun t ht => h.done t ht (by simp)⟩
  unplanned hop := by cases hop

/-- The cloud assembles the results of a plan. -/
theorem wp_synthesize {p : Plan} {s : Run} {Q : Except Exc Str → Run → Prop}
    (h : Scheduled x permit p [] s.toLedger)
    (ok : ∀ content s', Concluded x permit content s'.toLedger → Q (.ok content) s')
    (stop : ∀ e s', Stopped x permit e s'.toLedger → Q (.error e) s') :
    Coro.wp (terms x permit .main) (do
      event x .main (.synthesizing .cloud)
      let s ← Coro.read
      let v ← call x .main .cloud (.synthesize x.goal x.sources p.finalInstruction s.results)
      finalAnswer x v "Synthesis returned no answer") Q s := by
  rw [Coro.wp_bind]
  refine wp_event_idle h.ok h.idle fun r s₁ hl hp => ?_
  rw [← hl] at h
  cases r with
  | error e =>
      obtain rfl : e = cancelledError := by simpa using hp
      exact stop _ s₁ h.cancelled
  | ok _ =>
      rw [Coro.outcome_ok, Coro.wp_bind, Coro.wp_read, Coro.outcome_ok, Coro.wp_bind]
      have hm := h.mainCall
      refine wp_call_idle h.idle (fun b c hb hc hp => h.ok.withMainCall h.outcome hm hb hc hp)
        (fun e he => ?_) fun b c r s₂ hb hc hp hend hl₂ => ?_
      · obtain ⟨hcls, hcall, href, -⟩ := charge_eq_error he
        exact stop e s₁ (h.stopped (blames_fresh hcall) (.refused hcls href))
      · have hok := h.ok.withMainCall h.outcome hm hb hc hp
        have hsyn : ∃ c ∈ s₂.toLedger.calls, c.payload.operation = .synthesize := by
          rw [hl₂]
          exact ⟨c, by simp [Ledger.withCall], by rw [hc.payload]; rfl⟩
        have hstop : ∀ e, (∃ i, s₂.toLedger.Blames i e) → Stopped x permit e s₂.toLedger := by
          intro e hb
          obtain ⟨d, hd, hop⟩ := hsyn
          refine ⟨?_, ?_, ?_, fun _ => hb, fun _ => .synthesized hd hop⟩
          · rw [hl₂]
            exact hok
          · rw [hl₂]
            exact h.idle
          · rw [hl₂]
            exact h.outcome
        cases r with
        | error e =>
            refine stop e s₂ (hstop e ?_)
            rw [hl₂]
            exact blames_of_ended hc hend (.inl trivial)
        | ok v =>
            rw [Coro.outcome_ok]
            refine wp_finalAnswer (fun content => ok content s₂ ?_)
              fun e he => stop e s₂ (hstop e (blames_fresh he.1))
            have hroute : s₂.route = some .cloud := by
              rw [hl₂]
              exact h.ok.plan.routed p h.plan
            exact
              { ok := by rw [hl₂]; exact hok
                idle := by rw [hl₂]; exact h.idle
                outcome := by rw [hl₂]; exact h.outcome
                routed := by rw [hroute]; rfl
                content := fun t ht hne => by
                  rw [hroute] at ht
                  exact absurd (Option.some.inj ht).symm hne
                synthesized := fun _ => hsyn }

theorem wp_answerByPlan {context : List LocalAttempt} {s : Run}
    {Q : Except Exc Str → Run → Prop} (h : InCloud x permit x.localSlots s.toLedger)
    (hplans : x.policy.plans x.lib x.text = true)
    (ok : ∀ content s', Concluded x permit content s'.toLedger → Q (.ok content) s')
    (stop : ∀ e s', Stopped x permit e s'.toLedger → Q (.error e) s') :
    (answerByPlan x context).wp (terms x permit .main) Q s := by
  unfold answerByPlan
  rw [Coro.wp_bind]
  refine wp_makePlan (h.mono (List.sublist_append_left _ _)) hplans (fun p s₁ h₁ => ?_) stop
  rw [Coro.outcome_ok, Coro.wp_bind]
  refine wp_runTasks h₁ (fun s₂ h₂ => ?_) stop
  rw [Coro.outcome_ok]
  exact wp_synthesize h₂ ok stop

theorem wp_escalate {s : Run} {Q : Except Exc Str → Run → Prop}
    (h : Undecided x permit x.localSlots (s.verdicts.map Verdict.tier) s.toLedger)
    (hd : s.toLedger.judgedTiers = x.locals)
    (ok : ∀ content s', Concluded x permit content s'.toLedger → Q (.ok content) s')
    (stop : ∀ e s', Stopped x permit e s'.toLedger → Q (.error e) s') :
    (escalate x).wp (terms x permit .main) Q s := by
  have hcloud := h.inCloud hd
  unfold escalate
  rw [Coro.wp_bind]
  refine wp_update_main (mainStep_of_eq rfl rfl rfl rfl fun _ h => h) ?_
  rw [Coro.outcome_ok, Coro.wp_bind, Coro.wp_read, Coro.outcome_ok]
  simp only
  rw [Coro.wp_bind]
  refine wp_event_idle hcloud.ok hcloud.idle fun r s₁ hl hp => ?_
  have h₁ : InCloud x permit x.localSlots s₁.toLedger := by
    rw [hl]
    exact hcloud
  cases r with
  | error e =>
      obtain rfl : e = cancelledError := by simpa using hp
      exact stop _ s₁ (h₁.stopped (blames_fresh rfl))
  | ok _ =>
      rw [Coro.outcome_ok]
      split
      · rename_i hplans
        exact wp_answerByPlan h₁ hplans ok stop
      · rename_i hplans
        exact wp_answerDirectly h₁ (Bool.eq_false_iff.mpr hplans) ok stop

/-! ## An exact extraction -/

/-- An exact extraction was accepted, as the answer `a`, and nothing else was done. -/
structure Copied (x : Setup) (permit : Permit) (a : Str) (l : Ledger) : Prop where
  ok : l.Ok x permit
  jobs : l.jobs = []
  plan : l.plan = none
  route : l.route = none
  outcome : l.outcome = none
  extracted : l.Extracted x a
  unasked : ∀ c ∈ l.mine .main, c.payload.forTier = none
  free : ∀ c ∈ l.calls, c.record.tier ≠ .cloud

variable {a : Str}

theorem Copied.idle (h : Copied x permit a l) : Idle l := idle_of_jobs_nil h.jobs

theorem Copied.cancelled (h : Copied x permit a l) : Stopped x permit cancelledError l where
  ok := h.ok
  idle := h.idle
  outcome := h.outcome
  blames _ := blames_fresh rfl
  planned hp := by
    rw [h.plan] at hp
    cases hp

/-- Accepting an extraction. -/
theorem Undecided.copied {pre : List Slot} (h : Undecided x permit pre [] l)
    (ha : l.Extracted x a) (key : Str) (v : Json) :
    MainStep l { l with results := l.results.set key v } ∧
      Copied x permit a { l with results := l.results.set key v } := by
  refine ⟨?_, ?_⟩
  · exact
      { calls := fun j _ => .refl j l
        history := .refl l
        budget := .refl _
        grows := fun k w hk => by
          rw [h.results] at hk
          cases hk
        busy := fun ⟨n, hn⟩ => by
          rw [h.idle n] at hn
          cases hn
        plan := fun _ hp => hp
        jobs := ⟨[], by simp⟩ }
  · refine
      { ok := ?_, jobs := h.jobs, plan := h.plan, route := h.route, outcome := h.outcome
        extracted := ha, unasked := fun c hc => ?_, free := h.free }
    swap
    · exact Option.eq_none_iff_forall_not_mem.mpr fun t ht => by simpa using h.about c hc t ht
    refine
      { calls := h.ok.calls.congr rfl rfl le_rfl
        main := h.ok.main.congr rfl rfl rfl rfl h.ok.main.free
        plan :=
          { batches := h.ok.plan.batches, none := h.ok.plan.none
            accepted := h.ok.plan.accepted, routed := h.ok.plan.routed
            tasks := h.ok.plan.tasks, ids := h.ok.plan.ids
            keys := fun hsome => ?_
            extracted := fun _ _ _ => ⟨a, ha⟩
            synthesized := fun c hc goal sources instruction results hpay => ?_
            unanswered := fun hsome => ?_ }
        jobs := fun n job hj => ?_
        ended := fun o ho => ?_ }
    · have hsome : l.plan.isSome := hsome
      rw [h.plan] at hsome
      cases hsome
    · obtain ⟨p, hp, -⟩ := h.ok.plan.synthesized c hc goal sources instruction results hpay
      rw [h.plan] at hp
      cases hp
    · have hsome : l.plan.isSome := hsome
      rw [h.plan] at hsome
      cases hsome
    · have hj : l.jobs[n]? = some job := hj
      rw [h.jobs] at hj
      simp at hj
    · have ho : l.outcome = some o := ho
      rw [h.outcome] at ho
      cases ho

/-- Its answer is the content. -/
theorem Copied.concluded (h : Copied x permit a l) :
    Concluded x permit (x.label a) { l with route := some .small } where
  ok := by
    refine h.ok.withMain h.outcome h.plan rfl ?_
    exact
      { schedule := h.ok.main.schedule, tiers := h.ok.main.tiers, fits := h.ok.main.fits
        distrusted := h.ok.main.distrusted
        heard := fun _ c hc t ht => by
          rw [h.unasked c hc] at ht
          cases ht
        judged := h.ok.main.judged
        escalates := h.ok.main.escalates
        trusted := fun _ _ _ => .inl ⟨a, h.extracted⟩
        free := fun _ _ _ => h.free
        cloud := fun hc => by cases hc }
  idle := h.idle
  outcome := h.outcome
  routed := rfl
  content _ _ _ := .inl ⟨a, h.extracted, rfl⟩
  synthesized hp := by
    have hp : l.plan.isSome := hp
    rw [h.plan] at hp
    cases hp

theorem extract_sublist (hx : x.localExtract = true) :
    [Slot.extract].Sublist x.schedule := by
  rw [Setup.schedule, Setup.localSlots, if_pos hx, List.singleton_append, List.cons_append]
  exact List.Sublist.cons_cons _ (List.nil_sublist _)

/-- The extraction is accepted, or the local models are next, or an error of the call goes
on. -/
theorem wp_tryExtract (hx : x.localExtract = true) {s : Run}
    {Q : Except Exc (Option Str) → Run → Prop} (h : Undecided x permit [] [] s.toLedger)
    (hd : s.toLedger.judgedTiers = [])
    (copied : ∀ a s', Copied x permit a s'.toLedger → Q (.ok (some a)) s')
    (refused : ∀ s', Undecided x permit [.extract] [] s'.toLedger →
      s'.toLedger.judgedTiers = [] → Q (.ok none) s')
    (stop : ∀ e s', Stopped x permit e s'.toLedger → Q (.error e) s') :
    (tryExtract x).wp (terms x permit .main) Q s := by
  unfold tryExtract
  rw [Coro.wp_bind]
  refine wp_event_idle h.ok h.idle fun r s₁ hl hp => ?_
  rw [← hl] at h hd
  cases r with
  | error e =>
      obtain rfl : e = cancelledError := by simpa using hp
      exact stop _ s₁ (h.stopped fun _ => blames_fresh rfl)
  | ok _ =>
      have hcall : ∀ {b c}, charge x .small (Payload.operation (.attempt x.goal x.sources))
          s₁.budget = .ok b → c.MadeBy .main .small (.attempt x.goal x.sources) →
          c.Permitted permit → Undecided x permit [.extract] [] (s₁.toLedger.withCall b c) :=
        fun hb hc hp => h.withCall (p := .attempt x.goal x.sources) (extract_sublist hx) rfl
          (by simp) (fun t ht => by cases ht) (fun t ht => by cases ht)
          (by simp [Payload.operation]) hb hc hp
      rw [Coro.outcome_ok, Coro.wp_bind]
      refine wp_call_idle h.idle (fun b c hb hc hp => (hcall hb hc hp).ok)
        (fun e he => by cases he) fun b c r s₂ hb hc hp hend hl₂ => ?_
      have h₂ := hcall hb hc hp
      rw [← hl₂] at h₂
      have hd₂ : s₂.toLedger.judgedTiers = [] := by
        rw [hl₂]
        exact hd
      cases r with
      | error e =>
          refine stop e s₂ (h₂.stopped fun _ => ?_)
          rw [hl₂]
          exact blames_of_ended hc hend (.inl trivial)
      | ok v =>
          rw [Coro.outcome_ok]
          split
          · rw [Coro.wp_bind]
            refine wp_event_idle h₂.ok h₂.idle fun r s₃ hl₃ hp₃ => ?_
            rw [← hl₃] at h₂ hd₂
            cases r with
            | error e =>
                obtain rfl : e = cancelledError := by simpa using hp₃
                exact stop _ s₃ (h₂.stopped fun _ => blames_fresh rfl)
            | ok _ => exact refused s₃ h₂ hd₂
          · rename_i a ha
            have hex : s₂.toLedger.Extracted x a := by
              rw [hl₂]
              refine ⟨c, v, ?_, hc.payload, hend, ha⟩
              rw [mine_withCall_main hc.thread]
              simp
            obtain ⟨hstep, hcopied⟩ := h₂.copied hex "local_answer".toList v
            rw [Coro.wp_bind]
            refine wp_update_main hstep ?_
            rw [Coro.outcome_ok, Coro.wp_bind]
            refine wp_event_idle hcopied.ok hcopied.idle fun r s₃ hl₃ hp₃ => ?_
            have h₃ : Copied x permit a s₃.toLedger := by
              rw [hl₃]
              exact hcopied
            cases r with
            | error e =>
                obtain rfl : e = cancelledError := by simpa using hp₃
                exact stop _ s₃ h₃.cancelled
            | ok _ => exact copied a s₃ h₃

/-! ## The answer to a request -/

/-- The local models, then the cloud. -/
theorem wp_route {pre : List Slot} {s : Run} {Q : Except Exc Str → Run → Prop}
    (hpre : pre ++ x.locals.flatMap x.judgeSlots = x.localSlots)
    (h : Undecided x permit pre [] s.toLedger) (hd : s.toLedger.judgedTiers = [])
    (ok : ∀ content s', Concluded x permit content s'.toLedger → Q (.ok content) s')
    (stop : ∀ e s', Stopped x permit e s'.toLedger → Q (.error e) s') :
    (route x).wp (terms x permit .main) Q s := by
  unfold route
  rw [Coro.wp_bind]
  refine wp_cascade (List.nil_append _).symm ?_ (h.mono (.refl _) (List.nil_subset _)) hd
    (fun s' h' hd' => ?_)
    (fun content s' h' => ok content s' h'.concluded) stop
  · change (pre ++ x.locals.flatMap x.judgeSlots).Sublist x.schedule
    rw [hpre, Setup.schedule]
    exact List.sublist_append_left _ _
  · change Undecided x permit (pre ++ x.locals.flatMap x.judgeSlots) _ _ at h'
    rw [hpre] at h'
    exact wp_escalate h' hd' ok stop

theorem wp_execute {s : Run} {Q : Except Exc Str → Run → Prop}
    (h : Undecided x permit [] [] s.toLedger) (hd : s.toLedger.judgedTiers = [])
    (ok : ∀ content s', Concluded x permit content s'.toLedger → Q (.ok content) s')
    (stop : ∀ e s', Stopped x permit e s'.toLedger → Q (.error e) s') :
    (execute x).wp (terms x permit .main) Q s := by
  unfold execute
  by_cases hx : x.localExtract = true
  · rw [if_pos hx, Coro.wp_bind]
    refine wp_tryExtract hx h hd (fun a s' h' => ?_) (fun s' h' hd' => ?_) stop
    · rw [Coro.outcome_ok]
      simp only
      rw [Coro.wp_bind]
      exact wp_update_main (mainStep_of_eq rfl rfl rfl rfl fun _ h => h)
        (ok _ _ h'.concluded)
    · exact wp_route (by rw [Setup.localSlots, if_pos hx]) h' hd' ok stop
  · rw [if_neg hx]
    exact wp_route (by rw [Setup.localSlots, if_neg hx]) h hd ok stop

/-- The records before the main flow does anything. -/
theorem undecided_empty : Undecided x permit [] [] {} where
  ok := Ledger.ok_empty x permit
  jobs := rfl
  plan := rfl
  route := rfl
  outcome := rfl
  results := rfl
  slots := List.nil_sublist _
  free := by simp
  about := by simp [Ledger.mine]
  escalated := by simp

/-! ## The handlers -/

/-- A result was returned, and says what the records say. -/
theorem Concluded.answered {content : Str} (h : Concluded x permit content l) {r : RunResult}
    (hc : r.content = content) (hres : r.results = l.results) (hroute : r.metrics.route = l.route)
    (hv : r.metrics.verdicts = l.verdicts) (hs : r.metrics.skipped = l.skipped) :
    Answered x r l where
  results := hres
  route := hroute
  verdicts := hv
  skipped := hs
  content := hc ▸ h.content
  routed := h.routed
  synthesized := h.synthesized

/-- What holds where the caller's task ends. -/
structure MainEnd (x : Setup) (permit : Permit) (r : Except Exc RunResult) (l : Ledger) :
    Prop where
  ok : l.Ok x permit
  outcome : l.outcome = none
  ended : Ended x l r

/-- An error is on its way to the handlers. -/
structure Failing (x : Setup) (permit : Permit) (e : Exc) (l : Ledger) : Prop where
  ok : l.Ok x permit
  idle : Idle l
  outcome : l.outcome = none
  blames : x.policy.DefaultRules → ∃ i, l.Blames i e
  planned : l.plan.isSome → e = timeoutError ∨ PlanError x l e

theorem Stopped.failing {e : Exc} (h : Stopped x permit e l) : Failing x permit e l :=
  ⟨h.ok, h.idle, h.outcome, h.blames, fun hp => .inr (h.planned hp)⟩

theorem Stopped.timeout {e : Exc} (h : Stopped x permit e l) :
    Failing x permit timeoutError l :=
  ⟨h.ok, h.idle, h.outcome, fun _ => blames_fresh rfl, fun _ => .inl rfl⟩

theorem reported_call (e : Exc) : e.reported.call = e.call := by
  unfold Exc.reported
  split
  · rfl
  · split <;> rfl

theorem Failing.reported {e : Exc} (h : Failing x permit e l) :
    MainEnd x permit (.error e.reported) l where
  ok := h.ok
  outcome := h.outcome
  ended :=
    { idle := h.idle
      answered := fun r hr => by cases hr
      blames := fun hdef e' he' => by
        cases he'
        obtain ⟨i, hi⟩ := h.blames hdef
        refine ⟨i, fun k hk => hi k ?_⟩
        rw [← reported_call, hk]
      planned := fun e' he' hp => by
        cases he'
        exact .inr ⟨e, rfl, h.planned hp⟩ }

theorem Failing.cancelled {e : Exc} (h : Failing x permit e l) :
    MainEnd x permit (.error cancelledError) l where
  ok := h.ok
  outcome := h.outcome
  ended :=
    { idle := h.idle
      answered := fun r hr => by cases hr
      blames := fun _ e' he' => by
        cases he'
        exact blames_fresh rfl
      planned := fun e' he' _ => by
        cases he'
        exact .inl rfl }

/-- The handlers report the error and raise what the caller gets. -/
theorem wp_runFailed {e : Exc} {s : Run} {Q : Except Exc RunResult → Run → Prop}
    (h : Failing x permit e s.toLedger)
    (hQ : ∀ r s', MainEnd x permit r s'.toLedger → Q r s') :
    (runFailed x e).wp (terms x permit .main) Q s := by
  have hreport : ∀ (data : EventData) (rest : Prog RunResult) (s : Run),
      Failing x permit e s.toLedger →
      (∀ s', Failing x permit e s'.toLedger → rest.wp (terms x permit .main) Q s') →
      Coro.wp (terms x permit .main) (do
        event x .main data true
        rest) Q s := by
    intro data rest s h hrest
    rw [Coro.wp_bind]
    refine wp_event_idle h.ok h.idle fun r s' hl hp => ?_
    have h' : Failing x permit e s'.toLedger := by
      rw [hl]
      exact h
    cases r with
    | ok _ => exact hrest s' h'
    | error e' =>
        obtain rfl : e' = cancelledError := by simpa using hp
        exact hQ _ s' h'.cancelled
  unfold runFailed
  rw [Coro.wp_bind, Coro.wp_read, Coro.outcome_ok]
  by_cases hc : e.cls = .cancelled
  · rw [if_pos hc, Coro.wp_bind]
    refine wp_update_of_eq rfl ?_
    rw [Coro.outcome_ok]
    refine hreport _ _ { s with shielded := true } h fun s' h' => hQ _ s' ?_
    have := h'.reported
    rwa [Exc.reported, if_pos (.inl hc)] at this
  · rw [if_neg hc]
    by_cases ht : e.cls = .timeout
    · rw [if_pos ht]
      refine hreport _ _ s h fun s' h' => hQ _ s' ?_
      have := h'.reported
      rwa [Exc.reported, if_neg (by simp [Exc.isRelayError, ht]), if_pos ht] at this
    · rw [if_neg ht]
      refine hreport _ _ s h fun s' h' => ?_
      have := h'.reported
      by_cases hrel : e.isRelayError = true
      · rw [if_pos hrel]
        rw [Exc.reported, if_pos (.inr hrel)] at this
        exact hQ _ s' this
      · rw [if_neg hrel]
        rw [Exc.reported, if_neg (by simp [hc, hrel]), if_neg ht] at this
        exact hQ _ s' this

/-! ## A run -/

/-- Asking the provider where its models run. -/
theorem wp_locations {s : Run} {Q : Except Exc (Dict Str Json) → Run → Prop}
    (hok : s.toLedger.Ok x permit) (hi : Idle s.toLedger)
    (hQ : ∀ r s', s'.toLedger = s.toLedger → Passed r → Q r s') :
    (locations x).wp (terms x permit .main) Q s := by
  unfold locations
  split
  · rw [Coro.wp_tryExcept]
    refine wp_ask hok fun s₁ m r s' hr _ _ _ ha => ?_
    have hl := hr.idle hi
    cases r with
    | ok d => exact hQ _ s' hl (passed_ok _)
    | error e =>
        simp only [Coro.outcome_error]
        split
        · exact hQ _ s' hl (passed_ok _)
        · rename_i hexc
          refine hQ _ s' hl ?_
          rcases answer_cases ha with ⟨-, -, -, he, -⟩ | ⟨-, -, ha⟩
          · cases he
            simp
          · exfalso
            cases m <;> simp only [answerOp, answerLocations] at ha <;> (try split at ha) <;>
              simp only [Option.some.injEq, Prod.mk.injEq, reduceCtorEq, Except.error.injEq,
                false_and] at ha
            · rename_i he
              exact hexc (ha.1 ▸ he)
            · exact hexc (ha.1 ▸ rfl)
  · exact hQ _ s rfl (passed_ok _)

theorem wp_reportNotice {s : Run} {Q : Except Exc Unit → Run → Prop}
    (hok : s.toLedger.Ok x permit) (hi : Idle s.toLedger)
    (hQ : ∀ r s', s'.toLedger = s.toLedger → Passed r → Q r s') :
    (reportNotice x).wp (terms x permit .main) Q s := by
  unfold reportNotice
  split
  · exact wp_event_idle hok hi hQ
  · exact hQ _ s rfl (passed_ok _)

/-- The body of a run, from its start. -/
theorem wp_answerRequest {s : Run} {Q : Except Exc RunResult → Run → Prop}
    (hs : s.toLedger = {})
    (ok : ∀ r s', MainEnd x permit (.ok r) s'.toLedger → Q (.ok r) s')
    (stop : ∀ e s', Stopped x permit e s'.toLedger → Q (.error e) s') :
    (answerRequest x).wp (terms x permit .main) Q s := by
  have hstart : ∀ s' : Run, s'.toLedger = {} → s'.toLedger.Ok x permit ∧ Idle s'.toLedger := by
    intro s' hs'
    rw [hs']
    exact ⟨Ledger.ok_empty x permit, idle_of_jobs_nil rfl⟩
  have hcancel : ∀ s' : Run, s'.toLedger = {} → Q (.error cancelledError) s' := by
    intro s' hs'
    refine stop _ s' ?_
    rw [hs']
    exact undecided_empty.stopped fun _ => blames_fresh rfl
  unfold answerRequest
  rw [Coro.wp_bind]
  refine wp_locations (hstart s hs).1 (hstart s hs).2 fun r s₁ hl₁ hp₁ => ?_
  have hs₁ := hl₁.trans hs
  cases r with
  | error e =>
      obtain rfl : e = cancelledError := by simpa using hp₁
      exact hcancel s₁ hs₁
  | ok found =>
      rw [Coro.outcome_ok, Coro.wp_bind]
      refine wp_event_idle (hstart s₁ hs₁).1 (hstart s₁ hs₁).2 fun r s₂ hl₂ hp₂ => ?_
      have hs₂ := hl₂.trans hs₁
      cases r with
      | error e =>
          obtain rfl : e = cancelledError := by simpa using hp₂
          exact hcancel s₂ hs₂
      | ok _ =>
          rw [Coro.outcome_ok, Coro.wp_bind]
          refine wp_reportNotice (hstart s₂ hs₂).1 (hstart s₂ hs₂).2 fun r s₃ hl₃ hp₃ => ?_
          have hs₃ := hl₃.trans hs₂
          cases r with
          | error e =>
              obtain rfl : e = cancelledError := by simpa using hp₃
              exact hcancel s₃ hs₃
          | ok _ =>
              have h₃ : Undecided x permit [] [] s₃.toLedger := by
                rw [hs₃]
                exact undecided_empty
              rw [Coro.outcome_ok, Coro.wp_bind]
              refine wp_execute h₃ (by rw [hs₃]; rfl) (fun content s₄ h₄ => ?_) stop
              rw [Coro.outcome_ok, Coro.wp_bind, Coro.wp_read, Coro.outcome_ok, Coro.wp_bind]
              refine wp_event_idle h₄.ok h₄.idle fun r s₅ hl₅ hp₅ => ?_
              have h₅ : Concluded x permit content s₅.toLedger := by
                rw [hl₅]
                exact h₄
              cases r with
              | error e =>
                  obtain rfl : e = cancelledError := by simpa using hp₅
                  exact stop _ s₅ ⟨h₅.ok, h₅.idle, h₅.outcome, fun _ => blames_fresh rfl,
                    fun _ => .cancelled rfl⟩
              | ok _ =>
                  rw [Coro.outcome_ok, Coro.wp_bind, Coro.wp_read, Coro.outcome_ok]
                  refine ok _ s₅ ⟨h₅.ok, h₅.outcome, h₅.idle, fun r hr => ?_,
                    fun _ e he => ?_, fun e he => ?_⟩
                  · cases hr
                    exact h₅.answered rfl rfl rfl rfl rfl
                  · cases he
                  · cases he

/-- The deadline's timer may turn the cancellation it sent into a `TimeoutError`. -/
theorem wp_deadline {c : Prog RunResult} {s : Run} {Q : Except Exc RunResult → Run → Prop}
    (hc : ∀ s' : Run, s'.toLedger = s.toLedger → c.wp (terms x permit .main)
      (fun r s' => ∀ s'' : Run, s''.toLedger = s'.toLedger →
        Q r s'' ∧ Q (r.mapError fun _ => timeoutError) s'') s') :
    (deadline c).wp (terms x permit .main) Q s := by
  unfold deadline
  rw [Coro.wp_bind]
  refine wp_update_of_eq rfl ?_
  rw [Coro.outcome_ok, Coro.wp_bind, Coro.wp_attempt]
  refine (hc { s with timer := .armed } rfl).mono fun r s₁ h₁ => ?_
  rw [Coro.outcome_ok, Coro.wp_bind, Coro.wp_read, Coro.outcome_ok, Coro.wp_bind]
  refine wp_update_of_eq rfl ?_
  rw [Coro.outcome_ok]
  have h₂ := h₁ { s₁ with timer := .off } rfl
  cases r with
  | ok a => exact h₂.1
  | error e =>
      simp only
      split
      · exact h₂.2
      · exact h₂.1

/-- **A run.** However it goes, the caller's task ends in a `MainEnd`. -/
theorem wp_run {s : Run} {Q : Except Exc RunResult → Run → Prop} (hs : s.toLedger = {})
    (hQ : ∀ r s', MainEnd x permit r s'.toLedger → Q r s') :
    (run x).wp (terms x permit .main) Q s := by
  have hbad : ∀ (e : Exc) (s' : Run), s'.toLedger = {} → e.call = none →
      MainEnd x permit (.error e) s'.toLedger := by
    intro e s' hs' he
    rw [hs']
    refine ⟨Ledger.ok_empty x permit, rfl, idle_of_jobs_nil rfl, fun r hr => ?_,
      fun _ e' he' => ?_, fun _ _ hp => ?_⟩
    · cases hr
    · cases he'
      exact blames_fresh he
    · cases hp
  unfold run
  rw [Coro.wp_bind]
  have hok : s.toLedger.Ok x permit := by
    rw [hs]
    exact Ledger.ok_empty x permit
  have hi : Idle s.toLedger := by
    rw [hs]
    exact idle_of_jobs_nil rfl
  refine wp_ask hok fun s₀ m r s₁ hr _ _ _ ha => ?_
  have hs₁ : s₁.toLedger = {} := (hr.idle hi).trans hs
  cases r with
  | error e =>
      rcases answer_cases ha with ⟨-, -, -, he, -⟩ | ⟨-, -, ha⟩
      · cases he
        exact hQ _ s₁ (hbad _ s₁ hs₁ rfl)
      · cases (ordinary_eq_some ha).2
  | ok _ =>
      rw [Coro.outcome_ok]
      split
      · exact hQ _ s₁ (hbad _ s₁ hs₁ rfl)
      · split
        · exact hQ _ s₁ (hbad _ s₁ hs₁ rfl)
        · rw [Coro.wp_tryExcept]
          refine wp_deadline fun s₂ hs₂ => ?_
          refine wp_answerRequest (hs₂.trans hs₁) (fun r s₃ h₃ s₄ hs₄ => ?_)
            fun e s₃ h₃ s₄ hs₄ => ?_
          · rw [← hs₄] at h₃
            exact ⟨hQ _ s₄ h₃, hQ _ s₄ h₃⟩
          · rw [← hs₄] at h₃
            exact ⟨wp_runFailed h₃.failing hQ, wp_runFailed h₃.timeout hQ⟩

/-! ## The end of the caller's task -/

theorem PlanError.ended {e : Exc} (h : PlanError x l e) (o : Option (Except Exc RunResult)) :
    PlanError x { l with outcome := o } e := by
  cases h with
  | cancelled h => exact .cancelled h
  | worker hj h => exact .worker hj h
  | refused hbudget h => exact .refused hbudget h
  | synthesized hc h => exact .synthesized hc h

/-- The end of the caller's task leaves the records fine. -/
theorem MainEnd.finish {r : Except Exc RunResult} (h : MainEnd x permit r l) :
    MainStep l { l with outcome := some r } ∧
      Ledger.Ok x permit { l with outcome := some r } := by
  refine ⟨?_, ?_⟩
  · exact
      { calls := fun j _ => .refl j l
        history := .refl l
        budget := .refl _
        grows := .refl _
        busy := fun _ => rfl
        plan := fun _ hp => hp
        jobs := ⟨[], by simp⟩ }
  · refine
      { calls := h.ok.calls.congr rfl rfl le_rfl
        main := h.ok.main.congr rfl rfl rfl rfl h.ok.main.free
        plan :=
          { batches := h.ok.plan.batches, none := h.ok.plan.none
            accepted := h.ok.plan.accepted, routed := h.ok.plan.routed
            tasks := h.ok.plan.tasks, ids := h.ok.plan.ids, keys := h.ok.plan.keys
            extracted := h.ok.plan.extracted
            synthesized := h.ok.plan.synthesized, unanswered := h.ok.plan.unanswered }
        jobs := fun n job hj =>
          (h.ok.jobs n job hj).of_rely hj (jobRely_of_eq (.refl _ l) (.refl _) rfl rfl)
        ended := fun o ho => ?_ }
    cases ho
    exact
      { idle := h.ended.idle
        answered := fun r hr =>
          let ha := h.ended.answered r hr
          { results := ha.results, route := ha.route, verdicts := ha.verdicts
            skipped := ha.skipped, content := ha.content, routed := ha.routed
            synthesized := ha.synthesized }
        blames := h.ended.blames
        planned := fun e he hp => by
          rcases h.ended.planned e he hp with hc | ⟨e₀, he₀, ht | hpe⟩
          · exact .inl hc
          · exact .inr ⟨e₀, he₀, .inl ht⟩
          · exact .inr ⟨e₀, he₀, .inr (hpe.ended _)⟩ }

end HorizonRelay
