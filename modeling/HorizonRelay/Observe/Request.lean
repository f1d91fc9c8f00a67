import HorizonRelay.Observe.Batches

/-!
# A request, as observers see it

After the local models the cloud takes over: it answers by itself, or it plans, and the
answer is put together once every job has returned.  Whichever way a run goes, the event
that tells its end comes when all its calls and jobs are over.

## Main definitions

* `Place.Finished` — every task of the plan, if there is one, was run.
* `Closing` — what is left when the main flow ends.

## Main results

* `Stands.wp_execute` — the answer to a request.
* `wp_run` — the caller's task.
-/

namespace HorizonRelay.Observed

open Py Coop

variable {x : Setup} {a : Premises} {s s' : Run} {pl : Place}

/-! ## The cloud -/

/-- Every task of the plan, if there is one, was run. -/
def Place.Finished (pl : Place) : Prop :=
  (pl.plan = none ∧ pl.jobs = []) ∨ ∃ tasks, pl.plan = some tasks ∧ Ran tasks [] pl.jobs

theorem Place.Finished.returned (h : pl.Finished) :
    ∀ job ∈ pl.jobs, ∃ v, job.outcome = some (.ok v) := by
  rcases h with ⟨-, hnil⟩ | ⟨tasks, -, hran⟩
  · rw [hnil]
    exact fun _ hj => by cases hj
  · exact hran.returned

/-- What the jobs have returned, they have told. -/
theorem allDone (hobs : Observed x a (some .main) s) (hat : At pl s.progress)
    (hjobs : s.jobs = pl.jobs) (hf : pl.Finished) (he : x.emit = true) : s.progress.AllDone := by
  intro id ph hph
  rcases hf with ⟨hplan, -⟩ | ⟨tasks, hplan, hran⟩
  · have hnone := hobs.story.accepts.planned.unplanned (hat.plan.trans hplan) id
    cases hph.symm.trans hnone
  · have hknown : (s.progress.tasks id).isSome ↔ id ∈ tasks.map Task.id :=
      hobs.story.accepts.known (hat.plan.trans hplan)
    obtain ⟨t, ht, rfl⟩ := List.mem_map.mp (hknown.mp (by rw [hph]; rfl))
    obtain ⟨job, hj, rfl⟩ := hran.ran t ht (by simp)
    obtain ⟨v, hv⟩ := hran.returned job hj
    rw [← hjobs] at hj
    obtain ⟨n, hn⟩ := List.mem_iff_getElem?.mp hj
    obtain ⟨⟨t, hdone⟩, -⟩ := (hobs.works.jobs n job hn (by rw [hv]; rfl)).told v hv he
    exact ⟨t, Option.some.inj (hph.symm.trans hdone)⟩

/-- Every call was reported as finished. -/
theorem allTold (hobs : Observed x a (some .main) s) (hcomp : Complete x .main s)
    (hret : ∀ job ∈ s.jobs, ∃ v, job.outcome = some (.ok v)) (he : x.emit = true) :
    ∀ c ∈ s.calls, c.key ∈ s.progress.finished := by
  intro c hc
  rcases hobs.follows.owned c hc with ⟨ht, -⟩ | ⟨n, job, m, ht, hj, -⟩
  · exact hcomp he c hc ht
  · obtain ⟨v, hv⟩ := hret job (List.mem_of_getElem? hj)
    exact ((hobs.works.jobs n job hj (by rw [hv]; rfl)).told v hv he).2 c hc ht

theorem allDone_of_sameMain {p p' : Progress} (h : p.SameMain p') (hd : p.AllDone) :
    p'.AllDone := by
  intro id ph hph
  obtain ⟨ph₀, h₀⟩ := Option.isSome_iff_exists.mp ((h.told id).mp (by rw [hph]; rfl))
  obtain ⟨t, rfl⟩ := hd id ph₀ h₀
  exact ⟨t, Option.some.inj (hph.symm.trans (h.done id t h₀))⟩

/-- The cloud's answer is a text, or refused by a check. -/
theorem wp_finalAnswer {v : Json} {refusal : String} {Q : Except Exc Str → Run → Prop}
    (ok : ∀ content, Q (.ok content) s) (error : ∀ e, Q (.error e) s) :
    (finalAnswer x v refusal).wp (eyes x a .main) Q s := by
  unfold finalAnswer
  split
  · split
    · exact error _
    · exact ok _
  · exact error _

section Cloud
variable {context : List LocalAttempt} {Q : Except Exc Str → Run → Prop}

/-- **The cloud answers by itself.** -/
theorem Stands.wp_answerDirectly (h : Stands x a pl s) (hmain : pl.main = .direct)
    (hf : pl.Finished)
    (ok : ∀ content pl' s', Stands x a pl' s' → pl'.main = .answered → pl'.Finished →
      Q (.ok content) s')
    (fail : ∀ e s', Fails x a s' → Q (.error e) s') :
    (answerDirectly x context).wp (eyes x a .main) Q s := by
  obtain ⟨main, seen, plan, jobs⟩ := pl
  obtain rfl : main = .direct := hmain
  unfold answerDirectly
  rw [Coro.wp_bind]
  refine h.wp_event rfl rfl (fun r hr => by cases hr) (by simp [Place.after, MainPhase.after])
    (fun p _ hp => hp.main) (fun s₁ h₁ => ?_) (fail _)
  rw [Coro.outcome_ok, Coro.wp_bind]
  refine h₁.wp_call (p := .answer x.text context) rfl (fun hs => by cases hs)
    (by simp [Place.after, MainPhase.after]) (fun p hp => hp.main)
    (fun e _ _ => fail e s₁ h₁.fails) (fun r s₂ _ h₂ => ?_) (fail _)
  cases r with
  | error e => exact fail e s₂ h₂.fails
  | ok v =>
      exact wp_finalAnswer (fun content => ok content _ s₂ h₂ rfl hf) fun e => fail e s₂ h₂.fails

end Cloud

/-- What the planner's reply is read as may be told. -/
theorem planFit_of_checkedPlan {raw : Json} {plan : Plan} (h : checkedPlan x raw = .ok plan) :
    PlanFit plan.tasks := by
  obtain ⟨q, hq, h⟩ := bind_eq_ok.mp h
  split at h
  · cases h
  · cases h
    have hw := Plan.parse_eq_ok_iff.mp hq
    refine
      { ids := hw.ids, names := fun t ht => ?_, closed := fun t ht d hd => ?_
        acyclic := hw.acyclic }
    · obtain ⟨_, _, hrow⟩ := hw.exists_row ht
      exact hrow.id.2
    · obtain ⟨other, hother, rfl, -⟩ := hw.dependsOn t ht d hd
      exact List.mem_map_of_mem hother

/-- **The planner.** By induction on the attempts that are left. -/
theorem Stands.wp_planFrom {context : List LocalAttempt} {n i : ℕ} {error : Option Str}
    {Q : Except Exc Plan → Run → Prop} (h : Stands x a pl s) (hmain : pl.main = .planning i)
    (hjobs : pl.jobs = [])
    (ok : ∀ plan pl' s', Stands x a pl' s' → PlanFit plan.tasks → pl'.main = .planned →
      pl'.plan = some plan.tasks → pl'.jobs = [] → Q (.ok plan) s')
    (fail : ∀ e s', Fails x a s' → Q (.error e) s') :
    (planFrom x context n (i + 1) error).wp (eyes x a .main) Q s := by
  induction n generalizing i error s pl with
  | zero => exact fail _ s h.fails
  | succ n ih =>
      obtain ⟨main, seen, plan, jobs⟩ := pl
      obtain rfl : main = .planning i := hmain
      obtain rfl : jobs = [] := hjobs
      unfold planFrom
      rw [Coro.wp_bind]
      refine h.wp_call (p := .plan x.goal x.sources error x.tiers context (i + 1)) rfl
        (fun hs => by cases hs) (by simp) (fun p hp => ⟨i, rfl, hp.main⟩)
        (fun e _ _ => fail e s h.fails) (fun r s₁ _ h₁ => ?_) (fail _)
      cases r with
      | error e => exact fail e s₁ h₁.fails
      | ok raw =>
          rw [Coro.outcome_ok]
          cases hp : checkedPlan x raw with
          | ok accepted =>
              have hfit := planFit_of_checkedPlan hp
              simp only
              rw [Coro.wp_bind, Coro.wp_update]
              obtain ⟨hdoes, h₂⟩ := h₁.record (t := { s₁ with plan := some accepted }) .unseen rfl
              refine ⟨hdoes, ?_⟩
              rw [Coro.outcome_ok, Coro.wp_bind]
              refine h₂.wp_event rfl rfl (fun r hr => by cases hr)
                (by simp [Place.called, Place.after, MainPhase.after, MainPhase.finish,
                  Payload.slot])
                (fun p _ hp => ⟨⟨i, hp.main⟩, hfit⟩) (fun s₃ h₃ => ?_) (fail _)
              rw [Coro.outcome_ok, Coro.wp_pure]
              exact ok accepted _ s₃ h₃ hfit rfl rfl rfl
          | error e =>
              simp only
              split
              · rw [Coro.wp_bind]
                refine h₁.wp_event rfl rfl (fun r hr => by cases hr)
                  (by simp [Place.called, Place.after, MainPhase.after, MainPhase.finish,
                    Payload.slot])
                  (fun p _ hp => ⟨i, rfl, hp.main⟩) (fun s₂ h₂ => ?_) (fail _)
                rw [Coro.outcome_ok]
                exact ih h₂ rfl rfl
              · exact fail e s₁ h₁.fails

section Cloud
variable {context : List LocalAttempt} {Q : Except Exc Str → Run → Prop}

/-- **The cloud plans, the workers work, the cloud assembles the results.** -/
theorem Stands.wp_answerByPlan (h : Stands x a pl s) (hmain : pl.main = .planning 0)
    (hjobs : pl.jobs = [])
    (ok : ∀ content pl' s', Stands x a pl' s' → pl'.main = .answered → pl'.Finished →
      Q (.ok content) s')
    (fail : ∀ e s', Fails x a s' → Q (.error e) s') :
    (answerByPlan x context).wp (eyes x a .main) Q s := by
  unfold answerByPlan makePlan runTasks
  rw [Coro.wp_bind]
  refine h.wp_planFrom hmain hjobs (fun plan pl₁ s₁ h₁ hfit hmain₁ hplan₁ hjobs₁ => ?_) fail
  obtain ⟨main, seen, plan?, jobs⟩ := pl₁
  obtain rfl : main = .planned := hmain₁
  obtain rfl : plan? = some plan.tasks := hplan₁
  obtain rfl : jobs = [] := hjobs₁
  rw [Coro.outcome_ok, Coro.wp_bind]
  refine h₁.wp_runBatches (.start hfit) rfl rfl le_rfl (fun jobs s₂ hran h₂ => ?_) fail
  have hf : Place.Finished ⟨.planned, seen, some plan.tasks, jobs⟩ := .inr ⟨_, rfl, hran⟩
  rw [Coro.outcome_ok, Coro.wp_bind]
  refine h₂.wp_event rfl rfl (fun r hr => by cases hr) (by simp [Place.after, MainPhase.after])
    (fun p hsame hp => ⟨hp.main, ?_⟩) (fun s₃ h₃ => ?_) (fail _)
  · -- a plan was told, so somebody observes
    have he : x.emit = true := by
      by_contra he
      have hplan := hp.plan
      rw [hsame.plan, progress_silent h₂.resting.observed he] at hplan
      cases hplan
    exact allDone_of_sameMain hsame (allDone h₂.resting.observed (h₂.place he) h₂.jobs hf he)
  rw [Coro.outcome_ok, Coro.wp_bind, Coro.wp_read, Coro.outcome_ok, Coro.wp_bind]
  refine h₃.wp_call (p := .synthesize x.goal x.sources plan.finalInstruction s₃.results) rfl
    (fun _ => ⟨rfl, hran.returned⟩) (by simp [Place.after, MainPhase.after]) (fun p hp => hp.main)
    (fun e _ _ => fail e s₃ h₃.fails) (fun r s₄ _ h₄ => ?_) (fail _)
  cases r with
  | error e => exact fail e s₄ h₄.fails
  | ok v =>
      exact wp_finalAnswer (fun content => ok content _ s₄ h₄ rfl hf) fun e => fail e s₄ h₄.fails

/-- **The cloud takes over.** -/
theorem Stands.wp_escalate (h : Stands x a pl s) (hmain : pl.main = .opened ∨ pl.main = .routing)
    (hplan : pl.plan = none) (hjobs : pl.jobs = [])
    (ok : ∀ content pl' s', Stands x a pl' s' → pl'.main = .answered → pl'.Finished →
      Q (.ok content) s')
    (fail : ∀ e s', Fails x a s' → Q (.error e) s') :
    (escalate x).wp (eyes x a .main) Q s := by
  unfold escalate
  rw [Coro.wp_bind, Coro.wp_update]
  obtain ⟨hdoes, h₁⟩ := h.record (t := { s with route := some .cloud }) .unseen rfl
  refine ⟨hdoes, ?_⟩
  rw [Coro.outcome_ok, Coro.wp_bind, Coro.wp_read, Coro.outcome_ok]
  simp only
  rw [Coro.wp_bind]
  have hphase : pl.main ≠ .answered := by
    rcases hmain with hmain | hmain <;> rw [hmain] <;> simp
  refine h₁.wp_event rfl rfl (fun r hr => by cases hr) (iff_of_false hphase ?_)
    (fun p _ hp => hmain.imp (hp.main.trans ·) (hp.main.trans ·)) (fun s₂ h₂ => ?_) (fail _)
  · simp only [Place.after, MainPhase.after]
    split <;> split <;> simp
  rw [Coro.outcome_ok]
  split
  · rename_i hplans
    rw [if_pos hplans] at h₂
    exact h₂.wp_answerByPlan rfl hjobs ok fail
  · rename_i hplans
    rw [if_neg hplans] at h₂
    exact h₂.wp_answerDirectly rfl (.inl ⟨hplan, hjobs⟩) ok fail

end Cloud

/-! ## The answer to a request -/

section Answer
variable {Q : Except Exc Str → Run → Prop}

/-- **The local models, smallest first, then the cloud.** -/
theorem Stands.wp_route (h : Stands x a pl s) (hmain : pl.main = .opened ∨ pl.main = .routing)
    (hseen : pl.seen = []) (hplan : pl.plan = none) (hjobs : pl.jobs = [])
    (ok : ∀ content pl' s', Stands x a pl' s' → pl'.main = .answered ∨ pl'.main = .accepted →
      pl'.Finished → Q (.ok content) s')
    (fail : ∀ e s', Fails x a s' → Q (.error e) s') :
    (route x).wp (eyes x a .main) Q s := by
  unfold route
  rw [Coro.wp_bind]
  refine h.wp_cascade hmain (fun t ht => ⟨ht, by rw [hseen]; simp⟩) (localTiers_nodup _)
    (fun pl' s' hmain' hplan' hjobs' h' => ?_)
    (fun answer pl' s' hmain' hplan' hjobs' h' => ?_) fail
  · exact h'.wp_escalate hmain' (hplan'.trans hplan) (hjobs'.trans hjobs)
      (fun content pl'' s'' h'' hm hf => ok content pl'' s'' h'' (.inl hm) hf) fail
  · exact ok answer pl' s' h' (.inr hmain') (.inl ⟨hplan'.trans hplan, hjobs'.trans hjobs⟩)

/-- **The answer to a request.** -/
theorem Stands.wp_execute (h : Stands x a ⟨.opened, [], none, []⟩ s)
    (ok : ∀ content pl' s', Stands x a pl' s' → pl'.main = .answered ∨ pl'.main = .accepted →
      pl'.Finished → Q (.ok content) s')
    (fail : ∀ e s', Fails x a s' → Q (.error e) s') :
    (execute x).wp (eyes x a .main) Q s := by
  unfold execute
  split
  · rw [Coro.wp_bind]
    refine h.wp_tryExtract rfl rfl (fun s₁ h₁ => ?_) (fun answer s₁ h₁ => ?_) fail
    · exact h₁.wp_route (.inr rfl) rfl rfl rfl ok fail
    · rw [Coro.outcome_ok]
      simp only
      rw [Coro.wp_bind, Coro.wp_update]
      obtain ⟨hdoes, h₂⟩ := h₁.record (t := { s₁ with route := some .small }) .unseen rfl
      exact ⟨hdoes, ok _ _ _ h₂ (.inr rfl) (.inl ⟨rfl, rfl⟩)⟩
  · exact h.wp_route (.inl rfl) rfl rfl rfl ok fail

end Answer

/-! ## The end of a run -/

/-- **When the main flow rests, the run is over.** -/
theorem over_of_settled (h : Settled x a .main s)
    (htold : s.progress.main = .completed → ∀ c ∈ s.calls, c.key ∈ s.progress.finished) :
    Over a s := by
  have hjob : ∀ (n : ℕ) (job : Job), s.jobs[n]? = some job → JobTold x a n job s := by
    intro n job hj
    exact h.observed.works.jobs n job hj (by simpa [Ledger.running, hj] using h.acts n)
  have howned : ∀ c ∈ s.calls, c.thread = .main ∨ ∃ n job, c.thread = .job n ∧
      s.jobs[n]? = some job := by
    intro c hc
    rcases h.observed.follows.owned c hc with ⟨ht, -⟩ | ⟨n, job, m, ht, hj, -⟩
    · exact .inl ht
    · exact .inr ⟨n, job, ht, hj⟩
  refine ⟨h.acts, fun c hc => ?_, fun k => ?_, fun ha key hk => ?_, htold⟩
  · rcases howned c hc with ht | ⟨n, job, ht, hj⟩
    · obtain ⟨k, hk⟩ := List.mem_iff_getElem?.mp hc
      exact (h.settled k c hk ht).1
    · exact (hjob n job hj).ended c hc ht
  · by_contra hq
    have hlt : k < s.calls.length := by
      by_contra hge
      refine hq fun hw => ?_
      unfold Run.live at hw
      rw [List.getElem?_eq_none (by rw [h.observed.follows.lives]; omega)] at hw
      cases hw
    have hc := List.getElem?_eq_getElem hlt
    rcases h.observed.follows.busy k _ hc hq with ht | ⟨n, -, hn⟩
    · exact hq (h.settled k _ hc ht).2
    · rw [h.acts n] at hn
      cases hn
  · obtain ⟨c, hc, rfl⟩ := h.observed.story.outputs key hk
    rcases howned c hc with ht | ⟨n, job, ht, hj⟩
    · exact h.calm ha c hc ht hk
    · exact (hjob n job hj).calm ha c hc ht hk

/-- What is left when the main flow ends: it rests, and an error does not follow a told
completion. -/
structure Closing (x : Setup) (a : Premises) (s : Run) : Prop where
  resting : Resting x a .main s
  careful : a.careful → s.progress.main ≠ .completed

/-- The timer does not matter. -/
theorem Resting.flags (h : Resting x a .main s) (t : Timer) (b : Bool) :
    Resting x a .main { s with timer := t, shielded := b } where
  observed := h.observed.congr rfl (.refl _) rfl (fun _ => rfl) { h.observed.queue with }
    (fun _ _ hj => hj) h.observed.works.cancels fun _ hn => hn
  acts := h.acts
  settled := h.settled
  calm := h.calm
  free := h.free

theorem Fails.flags (h : Fails x a s) (t : Timer) (b : Bool) :
    Fails x a { s with timer := t, shielded := b } where
  resting := h.resting.flags t b
  running := h.running
  careful := h.careful
  unanswered := h.unanswered

/-- **The main flow ends.** -/
theorem Resting.finish (h : Resting x a .main s) {r : Except Exc RunResult}
    (hr : a.careful → s.progress.main = .completed → ∀ e, r ≠ .error e) :
    Does a .main s { s with outcome := some r } ∧
      Observed x a none { s with outcome := some r } := by
  have hobs := h.park (parks_of_acts h.acts (.refl _ _))
  refine ⟨does_of_main rfl rfl rfl rfl rfl fun _ _ hi => hi,
    ⟨{ hobs.queue with }, { hobs.story with }, { hobs.follows with }, ?_, ?_⟩⟩
  · exact
      { hobs.works with
        jobs := fun n job hj hout => { hobs.works.jobs n job hj hout with } }
  · refine
      { last := hobs.closes.last, metrics := hobs.closes.metrics
        completes := hobs.closes.completes
        atEnd := fun hend => { hobs.closes.atEnd hend with }
        returns := fun ha hmain e he => hr ha hmain e (Option.some.inj he) }

/-- **The handlers tell how a run failed.** -/
theorem Fails.wp_event {d : EventData} {ms : ℤ} {Q : Except Exc Unit → Run → Prop}
    (h : Fails x a s)
    (hd : d = .runFailed (s.metricsAt x ms) ∨ d = .runCancelled (s.metricsAt x ms))
    (hQ : ∀ r s', Closing x a s' → Q r s') :
    (event x .main d true).wp (eyes x a .main) Q s := by
  have hm : d.metrics? = some (s.metricsAt x ms) := by
    rcases hd with rfl | rfl <;> rfl
  have hstopped : (s.progress.after d).main = .stopped := by
    rcases hd with rfl | rfl <;> rfl
  have hplain : ∀ m, d ≠ .runCompleted m := by
    rcases hd with rfl | rfl <;> simp
  have hteller : d.teller = .main := by
    rcases hd with rfl | rfl <;> rfl
  have hafter : ∀ s', Said x a .main (s.progress.after d) s s' → Closing x a s' := by
    intro s' hs
    refine ⟨hs.resting, fun _ hc => ?_⟩
    by_cases he : x.emit = true
    · rw [(hs.story he).main, hstopped] at hc
      cases hc
    · rw [progress_silent hs.resting.observed he] at hc
      cases hc
  refine h.resting.wp_event (by rw [hm]; rfl) (fun n hn => by cases hn) ?_
    (fun s' hs _ => hQ _ s' (hafter s' hs)) ?_
  · intro s' hset _ hs hstory _ _
    have hmain : s'.progress.main = s.progress.main := hstory.main
    have hl : s'.toLedger = s.toLedger := MainRely.idle hs.ledger h.resting.acts
    have hover : Over a s' := by
      refine over_of_settled hset fun hc => ?_
      exact (hset.observed.closes.atEnd (.inl hc)).told hc
    exact
      { expects := ⟨by rw [hmain]; exact h.running, fun _ => ⟨_, hd⟩, by
          rcases hd with rfl | rfl <;> trivial⟩
        tells := hteller
        done := fun id t k j r hd' => by rw [hd'] at hteller; cases hteller
        finished := fun r hd' => by rw [hd'] at hm; cases hm
        link := fun k c hc ht hq => absurd (hset.settled k c hc ht).2 hq
        atEnd := fun m hm' => by
          rw [hm] at hm'
          cases hm'
          exact ⟨hover, (metricsAt_congr hl ms).symm,
            (congrArg Ledger.outcome hl).trans h.unanswered⟩
        told := fun m hd' => absurd hd' (hplain m)
        completes := fun ha _ _ => by rw [hmain]; exact h.careful ha }
  · rintro s' he (⟨hs, -⟩ | ⟨hs, -⟩)
    · refine hQ _ s' ⟨hs.resting, fun ha hc => h.careful ha ?_⟩
      rw [← hc]
      exact (hs.story he).main.symm
    · exact hQ _ s' (hafter s' hs)

/-- **The handlers of a run.** -/
theorem Fails.wp_runFailed {e : Exc} {Q : Except Exc RunResult → Run → Prop} (h : Fails x a s)
    (hQ : ∀ e s', Closing x a s' → Q (.error e) s') :
    (runFailed x e).wp (eyes x a .main) Q s := by
  have hreport : ∀ (d : EventData) (rest : Prog RunResult) (s : Run), Fails x a s →
      d = .runFailed (s.metrics x) ∨ d = .runCancelled (s.metrics x) →
      (∀ s', Closing x a s' → rest.wp (eyes x a .main) Q s') →
      Coro.wp (eyes x a .main) (do
        event x .main d true
        rest) Q s := by
    intro d rest s h hd hrest
    rw [Coro.wp_bind]
    have hd' : d = .runFailed (s.metricsAt x (s.metrics x).elapsedMs) ∨
        d = .runCancelled (s.metricsAt x (s.metrics x).elapsedMs) := hd
    refine h.wp_event hd' fun r s' h' => ?_
    cases r with
    | ok _ => exact hrest s' h'
    | error e => exact hQ e s' h'
  unfold runFailed
  rw [Coro.wp_bind, Coro.wp_read, Coro.outcome_ok]
  split
  · rw [Coro.wp_bind, Coro.wp_update]
    refine ⟨does_of_main rfl rfl rfl rfl rfl fun _ _ hi => hi, ?_⟩
    rw [Coro.outcome_ok]
    exact hreport _ _ _ (h.flags s.timer true) (.inr rfl) fun s' h' => hQ _ s' h'
  · split
    · exact hreport _ _ s h (.inl rfl) fun s' h' => hQ _ s' h'
    · refine hreport _ _ s h (.inl rfl) fun s' h' => ?_
      split <;> exact hQ _ s' h'

/-! ## A run -/

/-- The main flow waits for something that changes nothing, but may catch a cancellation. -/
theorem Stands.wp_ask {op : Op} {Q : Except Exc (Ans op) → Run → Prop} (h : Stands x a pl s)
    (hsuits : Suits .main s op) (hleave : ∀ s₁, leave .main op s₁ = s₁.uncancel .main)
    (hanswer : ∀ s₁ r s₂ m, (op.isForeign = false → .main ∉ s₁.cancels) →
      answerOp x .main op s₁ m = some (r, s₂) →
      s₂ = s₁.uncancel .main ∧ ∀ e, r = .error e → e.isException = true)
    (answered : ∀ r s', (∀ e, r = .error e → e.isException = true) → Stands x a pl s' → Q r s')
    (fail : ∀ s', Fails x a s' → Q (.error cancelledError) s') :
    (ask op).wp (eyes x a .main) Q s := by
  refine Observed.wp_ask (h.resting.park (parks_of_acts h.resting.acts (.refl _ _)))
    (fun s₁ m r s₂ hr hs₁ _ _ ha => ?_) hsuits
  obtain ⟨hrest, hcomp⟩ := h.resting.resume hr hs₁
  have hl : s₁.toLedger = s.toLedger := MainRely.idle hr.ledger h.resting.acts
  have hopen : ¬ s₁.progress.Ended :=
    open_of_sameFor hrest.observed hrest.acts (fun _ => hr.story) h.opened
  have hout : s₁.outcome = none := (congrArg Ledger.outcome hl).trans h.unanswered
  rcases answer_cases ha with ⟨-, -, -, rfl, rfl⟩ | ⟨-, hc, ha⟩
  · rw [hleave]
    exact fail _ (.of_open hrest.uncancel hopen hout)
  · obtain ⟨rfl, hexc⟩ := hanswer _ _ _ _ (fun hop hmem => by
      rw [hc hmem] at hop
      cases hop) ha
    exact answered r _ hexc
      { resting := hrest.uncancel, complete := hcomp h.complete
        awake := awake_uncancel hs₁.works.cancels fun k hk => by cases hk
        place := fun he => (h.place he).of_sameMain hr.story
        jobs := (congrArg Ledger.jobs hl).trans h.jobs
        opened := hopen, unanswered := hout
        unassembled := fun hne => by
          rw [show (s₁.uncancel .main).calls = s.calls from congrArg Ledger.calls hl]
          exact h.unassembled hne }

/-- Asking the provider where its models run. -/
theorem Stands.wp_locations {Q : Except Exc (Dict Str Json) → Run → Prop} (h : Stands x a pl s)
    (ok : ∀ d s', Stands x a pl s' → Q (.ok d) s')
    (fail : ∀ s', Fails x a s' → Q (.error cancelledError) s') :
    (locations x).wp (eyes x a .main) Q s := by
  unfold locations
  split
  · rw [Coro.wp_tryExcept]
    refine h.wp_ask trivial (fun _ => rfl) (fun _ _ _ _ _ ha => answerLocations_cases ha)
      (fun r s' hexc h' => ?_) fun s' h' => ?_
    · cases r with
      | ok d => exact ok d s' h'
      | error e =>
          rw [Coro.outcome_error, if_pos (hexc e rfl), Coro.wp_pure]
          exact ok _ s' h'
    · rw [Coro.outcome_error, if_neg (by decide), Coro.wp_raise]
      exact fail s' h'
  · rw [Coro.wp_pure]
    exact ok _ s h

/-- **A run tells its completion.** -/
theorem Stands.wp_completed {Q : Except Exc Unit → Run → Prop} (h : Stands x a pl s)
    (hmain : pl.main = .answered ∨ pl.main = .accepted) (hf : pl.Finished)
    (ok : ∀ s', Resting x a .main s' → Q (.ok ()) s')
    (fail : ∀ s', Fails x a s' → Q (.error cancelledError) s') :
    (event x .main (.runCompleted (s.metrics x)) true).wp (eyes x a .main) Q s := by
  have hkept : ∀ s', Steady .main s s' → s'.toLedger = s.toLedger := fun s' hs =>
    MainRely.idle hs.ledger h.resting.acts
  refine h.resting.wp_event rfl (fun n hn => by cases hn) ?_
    (fun s' hs _ => ok s' hs.resting) ?_
  · intro s' hset hcomp hs hstory _ he
    have hl := hkept s' hs
    have hjobs : s'.jobs = pl.jobs := (congrArg Ledger.jobs hl).trans h.jobs
    have hat := (h.place he).of_sameMain hstory
    have htold := allTold hset.observed (hcomp h.complete)
      (by rw [hjobs]; exact hf.returned) he
    have hphase : s'.progress.main = .answered ∨ s'.progress.main = .accepted :=
      hmain.imp (hat.main.trans ·) (hat.main.trans ·)
    have hne : s'.progress.main ≠ .completed ∧ s'.progress.main ≠ .stopped := by
      rcases hphase with hm | hm <;> simp [hm]
    exact
      { expects := ⟨hne.2, fun hm => absurd hm hne.1, hphase,
          allDone hset.observed hat hjobs hf he⟩
        tells := rfl
        done := fun id t k j r hd => by cases hd
        finished := fun r hd => by cases hd
        link := fun k c hc ht hq => absurd (hset.settled k c hc ht).2 hq
        atEnd := fun m hm => by
          cases hm
          exact ⟨over_of_settled hset fun _ => htold, (metricsAt_congr hl _).symm,
            (congrArg Ledger.outcome hl).trans h.unanswered⟩
        told := fun _ _ => htold
        completes := fun _ hm => absurd rfl (hm (s.metrics x)) }
  · rintro s' he (⟨hs, -⟩ | ⟨hs, hcareful⟩)
    · exact fail s' (.of_open hs.resting
        (open_of_sameFor hs.resting.observed hs.resting.acts hs.story h.opened)
        ((congrArg Ledger.outcome (hkept s' hs.steady)).trans h.unanswered))
    · have hmain' : s'.progress.main = .completed := (hs.story he).main
      exact fail s'
        { resting := hs.resting, running := by rw [hmain']; simp
          careful := fun ha => absurd h.awake (hcareful _ rfl rfl ha)
          unanswered := (congrArg Ledger.outcome (hkept s' hs.steady)).trans h.unanswered }

/-- **The body of a run.** -/
theorem Stands.wp_answerRequest {Q : Except Exc RunResult → Run → Prop}
    (h : Stands x a ⟨.begun, [], none, []⟩ s)
    (ok : ∀ r s', Resting x a .main s' → Q (.ok r) s')
    (fail : ∀ e s', Fails x a s' → Q (.error e) s') :
    (answerRequest x).wp (eyes x a .main) Q s := by
  unfold answerRequest
  rw [Coro.wp_bind]
  refine h.wp_locations (fun found s₁ h₁ => ?_) (fail _)
  rw [Coro.outcome_ok, Coro.wp_bind]
  refine h₁.wp_event rfl rfl (fun r hr => by cases hr) (by simp [Place.after, MainPhase.after])
    (fun p _ hp => hp.main) (fun s₂ h₂ => ?_) (fail _)
  have hexecute : ∀ s₃, Stands x a ⟨.opened, [], none, []⟩ s₃ →
      Coro.wp (eyes x a .main) (do
        let content ← execute x
        let s ← Coro.read
        event x .main (.runCompleted (s.metrics x)) true
        let s ← Coro.read
        pure { content, results := s.results, metrics := s.metrics x }) Q s₃ := by
    intro s₃ h₃
    rw [Coro.wp_bind]
    refine h₃.wp_execute (fun content pl s₄ h₄ hmain hf => ?_) fail
    rw [Coro.outcome_ok, Coro.wp_bind, Coro.wp_read, Coro.outcome_ok, Coro.wp_bind]
    refine h₄.wp_completed hmain hf (fun s₅ h₅ => ?_) (fail _)
    rw [Coro.outcome_ok, Coro.wp_bind, Coro.wp_read, Coro.outcome_ok, Coro.wp_pure]
    exact ok _ s₅ h₅
  rw [Coro.outcome_ok, Coro.wp_bind]
  unfold reportNotice
  split
  · refine h₂.wp_event rfl rfl (fun r hr => by cases hr) (by simp [Place.after, MainPhase.after])
      (fun p _ hp => hp.main) (fun s₃ h₃ => ?_) (fail _)
    exact hexecute s₃ h₃
  · exact hexecute s₂ h₂

/-- The state before a run does anything. -/
theorem stands_start (hobs : Observed x a (some .main) s) (hs : s.toLedger = {})
    (hfree : Free .main s) (hw : Awake .main s) (hp : s.progress = {}) :
    Stands x a ⟨.begun, [], none, []⟩ s := by
  have hcalls : s.calls = [] := congrArg Ledger.calls hs
  have hjobs : s.jobs = [] := congrArg Ledger.jobs hs
  have hnone : ∀ c, c ∉ s.calls := by
    rw [hcalls]
    exact fun _ => List.not_mem_nil
  exact
    { resting :=
        { observed := hobs
          acts := fun n => by simp [Ledger.running, hjobs]
          settled := fun k c hc => absurd (List.mem_of_getElem? hc) (hnone c)
          calm := fun _ c hc => absurd hc (hnone c)
          free := hfree }
      complete := fun _ c hc => absurd hc (hnone c)
      awake := hw
      place := fun _ => by
        rw [hp]
        exact ⟨rfl, rfl, rfl⟩
      jobs := hjobs
      opened := by
        rw [hp]
        rintro (h | h) <;> cases h
      unanswered := congrArg Ledger.outcome hs
      unassembled := fun _ c hc => absurd hc (hnone c) }

/-- **The caller's task.** -/
theorem Stands.wp_run {Q : Except Exc RunResult → Run → Prop}
    (h : Stands x a ⟨.begun, [], none, []⟩ s)
    (ok : ∀ r s', Resting x a .main s' → Q (.ok r) s')
    (error : ∀ e s', Closing x a s' → Q (.error e) s') :
    (run x).wp (eyes x a .main) Q s := by
  have hfail : ∀ e s', Fails x a s' → Q (.error e) s' := fun e s' h' =>
    error e s' ⟨h'.resting, h'.careful⟩
  unfold run
  rw [Coro.wp_bind]
  refine h.wp_ask trivial (fun _ => rfl) (fun s₁ r s₂ m hc ha => ?_) (fun r s₁ _ h₁ => ?_) (hfail _)
  · cases (ordinary_eq_some ha).2
    exact ⟨(uncancel_of_notMem (hc rfl)).symm, fun e he => by cases he⟩
  cases r with
  | error e => exact hfail e s₁ h₁.fails
  | ok _ =>
      rw [Coro.outcome_ok]
      split
      · exact hfail _ s₁ h₁.fails
      · split
        · exact hfail _ s₁ h₁.fails
        · unfold deadline
          rw [Coro.wp_tryExcept, Coro.wp_bind, Coro.wp_update]
          obtain ⟨hdoes, h₂⟩ := h₁.record (t := { s₁ with timer := .armed }) .unseen rfl
          refine ⟨hdoes, ?_⟩
          rw [Coro.outcome_ok, Coro.wp_bind, Coro.wp_attempt]
          have htimer : ∀ s : Run, Does a .main s { s with timer := .off } := fun s =>
            does_of_main rfl rfl rfl rfl rfl fun _ _ hi => hi
          refine h₂.wp_answerRequest (fun r s₃ h₃ => ?_) fun e s₃ h₃ => ?_
          · rw [Coro.outcome_ok, Coro.wp_bind, Coro.wp_read, Coro.outcome_ok, Coro.wp_bind,
              Coro.wp_update]
            refine ⟨htimer s₃, ?_⟩
            rw [Coro.outcome_ok, Coro.wp_pure]
            exact ok r _ (h₃.flags .off s₃.shielded)
          · rw [Coro.outcome_ok, Coro.wp_bind, Coro.wp_read, Coro.outcome_ok, Coro.wp_bind,
              Coro.wp_update]
            refine ⟨htimer s₃, ?_⟩
            rw [Coro.outcome_ok]
            simp only
            split <;> exact (h₃.flags .off s₃.shielded).wp_runFailed error

end HorizonRelay.Observed
