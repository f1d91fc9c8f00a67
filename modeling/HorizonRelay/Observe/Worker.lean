import HorizonRelay.Observe.Calls

/-!
# The workers, as observers see them

A worker tells of each attempt at its task in turn, and tells that the task is completed
right after its result was stored.  What it told, and whether it was cancelled in between,
is known when it ends.

## Main definitions

* `Climbs` — a worker between its calls, where its task is told to be.
* `Ends` — what is known of a job when its worker ends.

## Main results

* `wp_worker` — the worker of a job, from its first turn on.
* `Ends.finish` — the end of a worker keeps the invariant.
-/

namespace HorizonRelay.Observed

open Py Coop

variable {x : Setup} {a : Premises} {s s' : Run} {n : ℕ} {job : Job} {ph q : TaskPhase}
  {res : Option Json}

/-- The worker of a job between its calls: where its task is told to be, and its result. -/
structure Climbs (x : Setup) (a : Premises) (n : ℕ) (job : Job) (ph : TaskPhase)
    (res : Option Json) (s : Run) : Prop where
  resting : Resting x a (.job n) s
  complete : Complete x (.job n) s
  here : s.jobs[n]? = some job
  phase : x.emit = true → s.progress.tasks job.task.id = some ph
  result : s.results.get? job.task.id = res

/-- What is known of a job when its worker ends. -/
structure Ends (x : Setup) (a : Premises) (n : ℕ) (job : Job) (r : Except Exc Json) (s : Run) :
    Prop where
  resting : Resting x a (.job n) s
  here : s.jobs[n]? = some job
  told : ∀ v, r = .ok v → Complete x (.job n) s ∧
    (x.emit = true → ∃ t, s.progress.tasks job.task.id = some (.done t))
  unhurt : a.unhurt → x.emit = true → job.task.id ∈ s.results.keys →
    ∃ t, s.progress.tasks job.task.id = some (.done t)

theorem not_mem_keys {d : Dict Str Json} {k : Str} (h : d.get? k = none) : k ∉ d.keys := by
  intro hk
  obtain ⟨v, hv⟩ := Dict.mem_keys_iff.mp hk
  rw [h] at hv
  cases hv

/-- A job that ends with an error before its result was stored. -/
theorem Ends.of_error (hr : Resting x a (.job n) s) (hj : s.jobs[n]? = some job)
    (hres : s.results.get? job.task.id = none) (e : Exc) : Ends x a n job (.error e) s where
  resting := hr
  here := hj
  told v hv := by cases hv
  unhurt _ _ hk := absurd hk (not_mem_keys hres)

theorem Climbs.opened (h : Climbs x a n job ph res s) : ¬ s.progress.Ended :=
  open_of_acts h.resting.observed h.resting.acts.1

theorem Climbs.running (h : Climbs x a n job ph res s) : s.running n = true :=
  h.resting.acts.1

/-- The steps of the others, and of the task itself, keep the worker's place. -/
theorem result_of_went (hw : Went (.job n) s s') (hn : s.running n = true)
    (hj : s.jobs[n]? = some job) : s'.jobs[n]? = some job ∧
      s'.results.get? job.task.id = s.results.get? job.task.id := by
  obtain ⟨hjob, hres⟩ := hw.job n rfl hn
  exact ⟨hjob.trans hj, hres job hj⟩

/-- The task is told to be where the progress that was meant has it. -/
theorem phase_of_sameFor {p q : Progress} (h : SameFor (.job n) s p q) (hn : s.running n = true)
    (hj : s.jobs[n]? = some job) (hp : p.tasks job.task.id = some ph) :
    q.tasks job.task.id = some ph := by
  rw [(h hn job hj (by rw [hp]; rfl)).task, hp]

/-- **A worker tells something about its task.** -/
theorem Climbs.wp_event {d : EventData} {Q : Except Exc Unit → Run → Prop}
    (h : Climbs x a n job ph res s) (hteller : d.teller = .task job.task.id)
    (hcall : ∀ r, d ≠ .callFinished r)
    (hallow : ∀ p : Progress, p.tasks job.task.id = some ph → p.Allows d)
    (hafter : ∀ ts, tasksAfter ts d job.task.id = some q)
    (hdone : ∀ id t k j r, d = .taskCompleted id t k j r → ∃ v, res = some v)
    (ok : ∀ s', Climbs x a n job q res s' → Q (.ok ()) s')
    (error : ∀ s', Resting x a (.job n) s' → s'.jobs[n]? = some job →
      s'.results.get? job.task.id = res →
      (a.unhurt → x.emit = true → ∀ v, res = some v → s'.progress.tasks job.task.id = some q) →
      Q (.error cancelledError) s') :
    (event x (.job n) d).wp (eyes x a (.job n)) Q s := by
  have hplain : d.metrics? = none := by cases d <;> first | rfl | cases hteller
  have hplan : ∀ tasks t, d ≠ .planCreated tasks t := by
    rintro tasks t rfl
    cases hteller
  have hphase : ∀ s', Said x a (.job n) (s.progress.after d) s s' → x.emit = true →
      s'.progress.tasks job.task.id = some q := fun s' hs he =>
    phase_of_sameFor (hs.story he) h.running h.here (hafter _)
  have hkept : ∀ s', Steady (.job n) s s' → s'.jobs[n]? = some job ∧
      s'.results.get? job.task.id = res := fun s' hs => by
    obtain ⟨hj, hr⟩ := result_of_went (went_of_steady hs) h.running h.here
    exact ⟨hj, hr.trans h.result⟩
  refine h.resting.wp_event (by rw [hplain]; rfl) (fun _ _ => hplan) ?_ ?_ ?_
  · intro s' hset hcomp hs hstory _ he
    obtain ⟨hj, hr⟩ := hkept s' hs
    have hopen := open_of_acts hset.observed hset.acts.1
    have hp := phase_of_sameFor hstory h.running h.here (h.phase he)
    refine
      { expects := ⟨fun hm => hopen (.inr hm), fun hm => absurd (.inl hm) hopen, hallow _ hp⟩
        tells := ⟨job, hj, hteller⟩
        done := fun id t k j r hd => ?_
        finished := fun r hd => absurd hd (hcall r)
        link := fun k c hc ht hq => absurd (hset.settled k c hc ht).2 hq
        atEnd := fun m hm => by rw [hplain] at hm; cases hm
        told := fun m hm => by rw [hm] at hplain; cases hplain
        completes := fun _ _ hm => by rw [hplain] at hm; cases hm }
    obtain ⟨v, hv⟩ := hdone id t k j r hd
    rw [hd] at hteller
    obtain rfl : id = job.task.id := Teller.task.inj hteller
    exact Dict.mem_keys_iff.mpr ⟨v, hr.trans hv⟩
  · intro s' hs _
    obtain ⟨hj, hr⟩ := hkept s' hs.steady
    exact ok s' ⟨hs.resting, hs.complete h.complete, hj, hphase s' hs, hr⟩
  · rintro s' he (⟨hs, hallows⟩ | ⟨hs, -⟩)
    · obtain ⟨hj, hr⟩ := hkept s' hs.steady
      refine error s' hs.resting hj hr fun ha _ v hv => ?_
      -- the worker was not cancelled while it waited to announce its result
      exact absurd (Dict.mem_keys_iff.mpr ⟨v, hr.trans hv⟩) (hallows.unhurt ha rfl rfl n job rfl hj)
    · obtain ⟨hj, hr⟩ := hkept s' hs.steady
      exact error s' hs.resting hj hr fun _ _ _ _ => hphase s' hs he

/-! ## Attempts -/

/-- **A worker makes a call.** -/
theorem Climbs.wp_callWithRecord {tier : Tier} {inputs : Inputs} {goal : Str} {attempt : ℕ}
    {errors : List Str} {Q : Except Exc (Json × CallRecord) → Run → Prop}
    (h : Climbs x a n job (.calling tier attempt) none s)
    (refused : ∀ e s', e.cls = .budget → Ends x a n job (.error e) s' → Q (.error e) s')
    (called : ∀ r s', (∀ e, r = .error e → e.isException = true) →
      Climbs x a n job (.called tier attempt) none s' → Q r s')
    (cut : ∀ s', Ends x a n job (.error cancelledError) s' → Q (.error cancelledError) s') :
    (callWithRecord x (.job n) tier (.work job.task inputs goal attempt errors)).wp
      (eyes x a (.job n)) Q s := by
  refine h.resting.wp_callWithRecord h.complete h.opened
    (.inr ⟨n, job, attempt, rfl, h.here, rfl⟩) (fun hs => by cases hs) (fun he => h.phase he)
    ?_ ?_ ?_
  · intro e _ hcls
    exact refused e s hcls (.of_error h.resting h.here h.result e)
  · intro r s' hr hc
    obtain ⟨rec, hkey, hsince⟩ := hc.told
    obtain ⟨hj, hres⟩ := result_of_went hsince.went h.running h.here
    refine called r s' hr ⟨hc.resting, hc.complete, hj, fun he => ?_, hres.trans h.result⟩
    refine phase_of_sameFor (hsince.story he) h.running h.here ?_
    have hslot : rec.slot = .work job.task.id attempt := congrArg Key.slot hkey
    have htier : rec.tier = tier := congrArg Key.tier hkey
    change tasksAfter s.progress.tasks (.callFinished rec) job.task.id = _
    simp only [tasksAfter, hslot, htier, Function.update_self]
  · intro s' hc
    obtain ⟨hj, hres⟩ := result_of_went hc.went h.running h.here
    exact cut s' (.of_error hc.resting hj (hres.trans h.result) _)

/-- One attempt of a worker, at any place it waits for. -/
theorem Climbs.wp_body {tier : Tier} {inputs : Inputs} {goal : Str} {attempt : ℕ}
    {model : Option Str} {errors : List Str} {Q : Except Exc (Json × CallRecord) → Run → Prop}
    (h : Climbs x a n job (.next tier attempt) none s)
    (refused : ∀ e s', e.cls = .budget → Ends x a n job (.error e) s' → Q (.error e) s')
    (called : ∀ r s', (∀ e, r = .error e → e.isException = true) →
      Climbs x a n job (.called tier attempt) none s' → Q r s')
    (cut : ∀ s', Ends x a n job (.error cancelledError) s' → Q (.error cancelledError) s') :
    Coro.wp (eyes x a (.job n)) (do
      event x (.job n) (.taskStarted job.task.id tier attempt model)
      callWithRecord x (.job n) tier (.work job.task inputs goal attempt errors)) Q s := by
  rw [Coro.wp_bind]
  refine h.wp_event (q := .calling tier attempt) rfl (fun r hr => by cases hr) (fun p hp => hp)
    (fun ts => Function.update_self _ _ _) (fun _ _ _ _ _ hd => by cases hd) ?_ ?_
  · intro s' h'
    rw [Coro.outcome_ok]
    exact h'.wp_callWithRecord refused called cut
  · intro s' hrest hj hres _
    exact cut s' (.of_error hrest hj hres _)

theorem Climbs.record {t : Run} (h : Climbs x a n job ph res s) (hr : Recording (.job n) s t)
    (hres : t.results = s.results) : Climbs x a n job ph res t := by
  obtain ⟨hrest, hcomp⟩ := h.resting.record h.opened hr
  refine ⟨hrest, hcomp h.complete, by rw [hr.jobs]; exact h.here, ?_, by rw [hres]; exact h.result⟩
  rw [hr.scene.progress]
  exact h.phase

theorem Ends.record {r : Except Exc Json} (h : Ends x a n job r s) (hr : Recording (.job n) s s')
    (hres : s'.results = s.results) : Ends x a n job r s' := by
  obtain ⟨hrest, hcomp⟩ :=
    h.resting.record (open_of_acts h.resting.observed h.resting.acts.1) hr
  have hprog : s'.progress = s.progress := hr.scene.progress
  refine ⟨hrest, by rw [hr.jobs]; exact h.here, fun v hv => ⟨hcomp (h.told v hv).1, ?_⟩, ?_⟩
  · rw [hprog]
    exact (h.told v hv).2
  · rw [hprog, hres]
    exact h.unhurt

theorem Climbs.resume (h : Climbs x a n job ph res s) (hr : Relies a (.job n) s s')
    (hobs : Observed x a none s') : Climbs x a n job ph res s' := by
  obtain ⟨hrest, hcomp⟩ := h.resting.resume hr hobs
  obtain ⟨hj, hres⟩ := result_of_went (went_of_steady hr.toSteady) h.running h.here
  exact ⟨hrest, hcomp h.complete, hj,
    fun he => phase_of_sameFor hr.story h.running h.here (h.phase he),
    hres.trans h.result⟩

/-- **One attempt of a worker.** -/
theorem Climbs.wp_perform {tier : Tier} {inputs : Inputs} {attempt : ℕ}
    {errors : List Str} {Q : Except Exc (Json × CallRecord) → Run → Prop}
    (h : Climbs x a n job (.next tier attempt) none s)
    (refused : ∀ e s', e.cls = .budget → Ends x a n job (.error e) s' → Q (.error e) s')
    (called : ∀ r s', (∀ e, r = .error e → e.isException = true) →
      Climbs x a n job (.called tier attempt) none s' → Q r s')
    (cut : ∀ s', Ends x a n job (.error cancelledError) s' → Q (.error cancelledError) s') :
    (perform x n job.task inputs tier attempt errors).wp (eyes x a (.job n)) Q s := by
  unfold perform
  simp only
  split
  · exact h.wp_body refused called cut
  · unfold withSlot
    rw [Coro.wp_bind]
    refine wp_ask (h.resting.park trivial) fun s₁ m r s' hr hobs _ _ ha => ?_
    have h₁ := h.resume hr hobs
    rcases answer_cases ha with ⟨-, -, -, rfl, rfl⟩ | ⟨-, -, ha⟩
    · exact cut _ (.of_error h₁.resting.uncancel h₁.here h₁.result _)
    · replace ha := (ordinary_eq_some ha).2
      split at ha <;> cases ha
      rw [Coro.outcome_ok, Coro.wp_tryFinally]
      -- however the attempt ends, its slot is free again
      refine (h₁.record (t := { s₁ with slots := s₁.slots + 1 }) .unseen rfl).wp_body ?_ ?_ ?_
      · intro e s₂ hcls h₂
        rw [Coro.wp_update]
        have hr₂ : Recording (.job n) s₂ { s₂ with slots := s₂.slots - 1 } := .unseen
        exact ⟨hr₂.does, refused e _ hcls (h₂.record hr₂ rfl)⟩
      · intro r s₂ hexc h₂
        rw [Coro.wp_update]
        have hr₂ : Recording (.job n) s₂ { s₂ with slots := s₂.slots - 1 } := .unseen
        exact ⟨hr₂.does, called r _ hexc (h₂.record hr₂ rfl)⟩
      · intro s₂ h₂
        rw [Coro.wp_update]
        have hr₂ : Recording (.job n) s₂ { s₂ with slots := s₂.slots - 1 } := .unseen
        exact ⟨hr₂.does, cut _ (h₂.record hr₂ rfl)⟩

/-! ## The ladder -/

theorem Climbs.wp_reportEscalation {tier previous : Tier} {attempt : ℕ} {errors : List Str}
    {Q : Except Exc Unit → Run → Prop} (h : Climbs x a n job (.next previous attempt) none s)
    (ok : ∀ s', Climbs x a n job (.next tier attempt) none s' → Q (.ok ()) s')
    (cut : ∀ s', Ends x a n job (.error cancelledError) s' → Q (.error cancelledError) s') :
    (reportEscalation x n job.task tier previous attempt errors).wp (eyes x a (.job n)) Q s := by
  unfold reportEscalation
  split
  · rename_i hne
    refine h.wp_event (q := .next tier attempt) rfl (fun r hr => by cases hr)
      (fun p hp => ⟨hp, hne⟩) (fun ts => Function.update_self _ _ _)
      (fun _ _ _ _ _ hd => by cases hd) ok fun s' hrest hj hres _ => ?_
    exact cut s' (.of_error hrest hj hres _)
  · rename_i heq
    obtain rfl : tier = previous := by simpa using heq
    exact ok s h

/-- The result of a worker's own task is stored. -/
theorem Climbs.setResult (h : Climbs x a n job ph none s) (v : Json) :
    Does a (.job n) s (s.setResult job.task.id v) ∧
      Climbs x a n job ph (some v) (s.setResult job.task.id v) := by
  have hget : ∀ k, k ≠ job.task.id → (s.setResult job.task.id v).results.get? k =
      s.results.get? k := fun k hk => by
    change (s.results.set _ _).get? k = _
    rw [Dict.get?_set, if_neg hk]
  have hr : Recording (.job n) s (s.setResult job.task.id v) :=
    { gathering := fun _ => rfl
      results := fun k hk => by
        by_cases hkey : k = job.task.id
        · subst hkey
          exact absurd hk (not_mem_keys h.result)
        · obtain ⟨w, hw⟩ := Dict.mem_keys_iff.mp hk
          exact Dict.mem_keys_iff.mpr ⟨w, (hget k hkey).trans hw⟩
      others := fun m job' hj' hout hk => by
        have hne : job'.task.id ≠ job.task.id := by
          intro heq
          obtain rfl := eq_of_task_id (l := s.toLedger) h.resting.observed.works.ids hj' h.here heq
          have hrun := h.running
          simp [Ledger.running, hj', Option.isSome_iff_ne_none.mp hout] at hrun
        obtain ⟨w, hw⟩ := Dict.mem_keys_iff.mp hk
        exact Dict.mem_keys_iff.mpr ⟨w, (hget _ hne).symm.trans hw⟩ }
  refine ⟨hr.does, ?_⟩
  have hobs := h.resting.observed.record h.opened hr
  have hrest : Resting x a (.job n) (s.setResult job.task.id v) :=
    { observed := hobs, acts := h.resting.acts, settled := h.resting.settled
      calm := h.resting.calm, free := h.resting.free }
  exact ⟨hrest, h.complete, h.here, h.phase, Dict.get?_set_self _ _ _⟩

/-- **The ladder.** By induction on the tiers that are left. -/
theorem Climbs.wp_ladder {tiers : List Tier} {inputs : Inputs} {attempt : ℕ} {previous : Tier}
    {errors : List Str} {Q : Except Exc Json → Run → Prop}
    (h : Climbs x a n job (.next previous attempt) none s)
    (hQ : ∀ r s', Ends x a n job r s' → Q r s') :
    (ladder x n job.task inputs tiers attempt previous errors).wp (eyes x a (.job n)) Q s := by
  induction tiers generalizing attempt previous errors s with
  | nil => exact hQ _ s (.of_error h.resting h.here h.result _)
  | cons tier tiers ih =>
      -- what follows an attempt that counts as failed
      have hfail : ∀ (msg : Str) (judgment : Option Judgment) (s : Run),
          Climbs x a n job (.called tier attempt) none s →
          Coro.wp (eyes x a (.job n)) (do
            event x (.job n) (.taskInvalid job.task.id tier attempt msg judgment)
            ladder x n job.task inputs tiers (attempt + 1) tier (errors ++ [msg])) Q s := by
        intro msg judgment s h
        rw [Coro.wp_bind]
        refine h.wp_event (q := .next tier (attempt + 1)) rfl (fun r hr => by cases hr)
          (fun p hp => hp) (fun ts => Function.update_self _ _ _)
          (fun _ _ _ _ _ hd => by cases hd) ?_ ?_
        · intro s' h'
          rw [Coro.outcome_ok]
          exact ih h'
        · intro s' hrest hj hres _
          exact hQ _ s' (.of_error hrest hj hres _)
      unfold ladder
      rw [Coro.wp_bind]
      refine h.wp_reportEscalation (fun s₁ h₁ => ?_) fun s' h' => hQ _ s' h'
      rw [Coro.outcome_ok, Coro.wp_bind, Coro.wp_attempt]
      refine h₁.wp_perform ?_ ?_ ?_
      · intro e s₂ hcls h₂
        rw [Coro.outcome_ok]
        simp only
        rw [if_pos hcls]
        exact hQ _ s₂ h₂
      · intro r s₂ hexc h₂
        rw [Coro.outcome_ok]
        cases r with
        | error e =>
            simp only
            split
            · exact hQ _ s₂ (.of_error h₂.resting h₂.here h₂.result _)
            · split
              · exact hfail e.msg none s₂ h₂
              · exact hQ _ s₂ (.of_error h₂.resting h₂.here h₂.result _)
        | ok vr =>
            obtain ⟨value, record⟩ := vr
            simp only
            split
            · rename_i e _
              split
              · exact hfail e.msg record.judgment s₂ h₂
              · exact hQ _ s₂ (.of_error h₂.resting h₂.here h₂.result _)
            · obtain ⟨hdoes, h₃⟩ := h₂.setResult value
              rw [Coro.wp_bind, Coro.wp_update]
              refine ⟨hdoes, ?_⟩
              rw [Coro.outcome_ok, Coro.wp_bind]
              refine h₃.wp_event (q := .done tier) rfl (fun r hr => by cases hr)
                (fun p hp => hp) (fun ts => Function.update_self _ _ _)
                (fun _ _ _ _ _ _ => ⟨value, rfl⟩) ?_ ?_
              · intro s₄ h₄
                rw [Coro.outcome_ok, Coro.wp_pure]
                exact hQ _ s₄
                  ⟨h₄.resting, h₄.here, fun _ _ => ⟨h₄.complete, fun he => ⟨_, h₄.phase he⟩⟩,
                  fun _ he _ => ⟨_, h₄.phase he⟩⟩
              · intro s₄ hrest hj hres hdone
                exact hQ _ s₄ ⟨hrest, hj, fun v hv => (by cases hv),
                  fun ha he _ => ⟨_, hdone ha he value rfl⟩⟩
      · intro s₂ h₂
        rw [Coro.outcome_ok]
        simp only
        rw [if_neg (by decide), if_neg (by decide)]
        exact hQ _ s₂ h₂

/-! ## The first turn -/

/-- A job that has not had its first turn. -/
structure Unstarted (n : ℕ) (s : Run) : Prop where
  free : Free (.job n) s
  number : s.number (.job n) = 0
  mine : ∀ (k : ℕ) (c : Call), s.calls[k]? = some c → c.thread ≠ .job n

/-- A job that is resumed for the first time stands where the plan put its task. -/
theorem Unstarted.climbs (h : Unstarted n s) (hr : Relies a (.job n) s s')
    (hobs : Observed x a none s') (hok : s'.toLedger.Ok x anyEnd) (hn : s'.running n = true)
    (hj : s'.jobs[n]? = some job) :
    Climbs x a n job (.next job.task.preferredTier 1) none s' := by
  have hmine : ∀ (k : ℕ) (c : Call), s'.calls[k]? = some c → c.thread ≠ .job n := by
    intro k c hc ht
    exact h.mine k c ((hr.ledger.1 k c ht).mpr hc) ht
  have hphase : x.emit = true →
      s'.progress.tasks job.task.id = some (.next job.task.preferredTier 1) := by
    intro he
    obtain ⟨tasks, hplan, hmem⟩ := hobs.works.planned he job (List.mem_of_getElem? hj)
    refine hobs.works.fresh he tasks hplan job.task hmem fun m job' hj' heq => ?_
    obtain rfl := eq_of_task_id (l := s'.toLedger) hobs.works.ids hj' hj heq
    rw [hr.number, h.number]
  have hunset : s'.results.get? job.task.id = none := by
    refine (hok.jobs n job hj).pending (List.filter_eq_nil_iff.mpr fun c hc ht => ?_)
    obtain ⟨k, hk⟩ := List.mem_iff_getElem?.mp hc
    exact hmine k c hk (by simpa using ht)
  refine ⟨⟨⟨hobs.wake _, ⟨hn, job, hj, fun he => ?_⟩, fun k c hc ht => ?_, fun _ c hc ht => ?_⟩,
    free_of_relies hr h.free⟩, fun _ c hc ht => ?_, hj, hphase, hunset⟩
  · rw [hphase he]
    rfl
  · exact absurd ht (hmine k c hc)
  all_goals
    obtain ⟨k, hk⟩ := List.mem_iff_getElem?.mp hc
    exact absurd ht (hmine k c hk)

/-- **The worker of a job**, from its first turn on. -/
theorem wp_worker {Q : Except Exc Json → Run → Prop} (hobs : Observed x a none s)
    (h : Unstarted n s) (hQ : ∀ job r s', Ends x a n job r s' → Q r s') :
    (worker x n).wp (eyes x a (.job n)) Q s := by
  unfold worker
  rw [Coro.wp_bind]
  refine wp_ask hobs fun s₁ m r s' hr hobs₁ hok _ ha => ?_
  rcases answer_cases ha with ⟨-, -, hn, rfl, rfl⟩ | ⟨-, -, ha⟩
  · obtain ⟨job, hj, -⟩ := exists_of_running hn
    have h₁ := h.climbs hr hobs₁ hok hn hj
    exact hQ job _ _ (.of_error h₁.resting.uncancel h₁.here h₁.result _)
  · replace ha := (ordinary_eq_some ha).2
    split at ha
    · rename_i hn
      obtain ⟨job, hj, ha⟩ := Option.map_eq_some_iff.mp ha
      cases ha
      have h₁ := h.climbs hr hobs₁ hok hn hj
      rw [Coro.outcome_ok, Coro.wp_bind, Coro.wp_read, Coro.outcome_ok, Coro.wp_bind,
        Coro.wp_ofExcept]
      cases resolveInputs x.sources s₁.results job.task.inputRefs .empty with
      | error e => exact hQ job _ s₁ (.of_error h₁.resting h₁.here h₁.result e)
      | ok inputs => exact h₁.wp_ladder (hQ job)
    · cases ha

/-! ## The end of a worker -/

/-- The jobs after one of them ended. -/
theorem getElem?_endJob {r : Except Exc Json} {m : ℕ} {job' : Job}
    (h : (s.endJob n r).jobs[m]? = some job') : ∃ job, s.jobs[m]? = some job ∧
      job'.task = job.task ∧ (m ≠ n ∧ job' = job ∨ m = n ∧ job'.outcome = some r) := by
  simp only [Run.endJob, List.getElem?_modify, Option.map_eq_map, Option.map_eq_some_iff] at h
  obtain ⟨job, hj, rfl⟩ := h
  refine ⟨job, hj, ?_⟩
  split
  · rename_i hn
    exact ⟨rfl, .inr ⟨hn.symm, rfl⟩⟩
  · rename_i hn
    exact ⟨rfl, .inl ⟨Ne.symm hn, rfl⟩⟩

theorem tasks_endJob (r : Except Exc Json) :
    (s.endJob n r).jobs.map Job.task = s.jobs.map Job.task := by
  apply List.ext_getElem?
  intro m
  simp only [Run.endJob, List.getElem?_map, List.getElem?_modify]
  cases s.jobs[m]? with
  | none => rfl
  | some job =>
      simp only [Option.map_eq_map, Option.map_some]
      split <;> rfl

theorem does_endJob (r : Except Exc Json) : Does a (.job n) s (s.endJob n r) :=
  { Does.refl a (.job n) s with tasks := fun _ => tasks_endJob r }

theorem running_endJob {r : Except Exc Json} {m : ℕ} (h : (s.endJob n r).running m = true) :
    m ≠ n ∧ s.running m = true := by
  obtain ⟨job', hj', hout⟩ := exists_of_running h
  obtain ⟨job, hj, -, ⟨hne, rfl⟩ | ⟨-, hr⟩⟩ := getElem?_endJob hj'
  · exact ⟨hne, by simp [Ledger.running, hj, hout]⟩
  · rw [hr] at hout
    cases hout

/-- **The end of a worker.** -/
theorem Ends.finish {r : Except Exc Json} (h : Ends x a n job r s) :
    Observed x a none (s.endJob n r) := by
  have hobs := h.resting.observed
  have hn := h.resting.acts.1
  have hopen : ¬ s.progress.Ended := open_of_acts hobs hn
  have htasks := tasks_endJob (s := s) (n := n) r
  have hids :
      ((s.endJob n r).jobs.map fun job => job.task.id) = s.jobs.map fun job => job.task.id := by
    have := congrArg (List.map Task.id) htasks
    simpa [List.map_map, Function.comp_def] using this
  have hstory : Story x a (s.endJob n r) := { hobs.story with }
  have hforth : ∀ (m : ℕ) (job : Job), s.jobs[m]? = some job →
      ∃ job', (s.endJob n r).jobs[m]? = some job' ∧ job'.task = job.task := by
    intro m job hj
    have := congrArg (fun ts : List Task => ts[m]?) htasks
    simp only [List.getElem?_map, hj, Option.map_some] at this
    exact Option.map_eq_some_iff.mp this
  refine ⟨{ hobs.queue with }, hstory, ?_, ?_,
    closes_of_open hstory hopen⟩
  · refine
      { lives := hobs.follows.lives, owned := fun c hc => ?_, watched := hobs.follows.watched
        busy := fun k c hc hq => ?_, link := hobs.follows.link
        still := fun k c hc _ hf hend => ?_ }
    · rcases hobs.follows.owned c hc with hm | ⟨m, job₀, i, ht, hj₀, hs⟩
      · exact .inl hm
      · obtain ⟨job', hj', htask⟩ := hforth m job₀ hj₀
        exact .inr ⟨m, job', i, ht, hj', by rw [htask]; exact hs⟩
    · rcases hobs.follows.busy k c hc hq with hm | ⟨m, ht, hrun⟩
      · exact .inl hm
      · refine .inr ⟨m, ht, ?_⟩
        have hne : n ≠ m := by
          rintro rfl
          exact hq (h.resting.settled k c hc ht).2
        exact (running_of_jobs (by simp [Run.endJob, hne])).trans hrun
    · by_cases ht : c.thread = .job n
      · exact .inl (h.resting.settled k c hc ht).2
      · exact hobs.follows.still k c hc (fun heq => ht (Option.some.inj heq).symm) hf hend
  · refine
      { ids := by rw [hids]; exact hobs.works.ids
        planned := fun he job' hj' => ?_, fresh := fun he tasks hplan t ht hnum => ?_
        assembled := fun c hc hs => ?_, jobs := fun m job' hj' hout => ?_
        gathered := fun _ m hm => ?_, cancels := hobs.works.cancels }
    · obtain ⟨m, hm⟩ := List.mem_iff_getElem?.mp hj'
      obtain ⟨job₀, hj₀, htask, -⟩ := getElem?_endJob hm
      rw [htask]
      exact hobs.works.planned he job₀ (List.mem_of_getElem? hj₀)
    · refine hobs.works.fresh he tasks hplan t ht fun m job₀ hj₀ hid => ?_
      obtain ⟨job', hj', htask⟩ := hforth m job₀ hj₀
      exact hnum m job' hj' (by rw [htask]; exact hid)
    · obtain ⟨job₀, hj₀, hnone⟩ := exists_of_running hn
      obtain ⟨v, hv⟩ := hobs.works.assembled c hc hs job₀ (List.mem_of_getElem? hj₀)
      rw [hnone] at hv
      cases hv
    · obtain ⟨job₀, hj₀, htask, ⟨-, rfl⟩ | ⟨rfl, hr⟩⟩ := getElem?_endJob hj'
      · exact { hobs.works.jobs m job' hj₀ hout with }
      · obtain rfl := Option.some.inj (hj₀.symm.trans h.here)
        have hmine : ∀ c ∈ s.calls, c.thread = .job m → ∃ k, s.calls[k]? = some c := fun c hc _ =>
          List.mem_iff_getElem?.mp hc
        refine ⟨fun c hc ht => ?_, fun v hv he => ?_, ?_, h.resting.calm⟩
        · obtain ⟨k, hk⟩ := hmine c hc ht
          exact (h.resting.settled k c hk ht).1
        · rw [hr] at hv
          obtain ⟨hcomp, hdone⟩ := h.told v (Option.some.inj hv)
          rw [htask]
          exact ⟨hdone he, hcomp he⟩
        · rw [htask]
          exact h.unhurt
    · obtain ⟨-, hrun⟩ := running_endJob hm
      exact hobs.works.gathered (by simp) m hrun

end HorizonRelay.Observed
