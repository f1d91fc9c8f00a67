import HorizonRelay.Observe.Worker

/-!
# The main flow, as observers see it

The main flow tells of each of its steps in turn.  While it acts no job runs, so what it
told last is where it stands.

## Main definitions

* `Place` — where the main flow stands, as its own events have told.
* `Stands` — the main flow between its calls, at a place.
* `Fails` — the main flow on its way to a handler.

## Main results

* `Stands.wp_event`, `Stands.wp_call` — the main flow tells something, and makes a call.
-/

namespace HorizonRelay.Observed

open Py Coop

variable {x : Setup} {a : Premises} {s s' : Run}

/-- Where the main flow stands, as its own events have told, and the jobs it has created. -/
structure Place : Type where
  main : MainPhase
  seen : List Tier := []
  plan : Option (List Task) := none
  jobs : List Job := []

/-- The place after an event of the main flow. -/
def Place.after (pl : Place) (d : EventData) : Place where
  main := pl.main.after d
  seen := match d with
    | .localSkipped t .. | .localSolve t _ => pl.seen ++ [t]
    | _ => pl.seen
  plan := match d with
    | .planCreated tasks _ => some tasks
    | _ => pl.plan
  jobs := pl.jobs

/-- What was told puts the main flow at a place. -/
structure At (pl : Place) (p : Progress) : Prop where
  main : p.main = pl.main
  seen : p.seen = pl.seen
  plan : p.plan = pl.plan

theorem At.after {pl : Place} {p : Progress} (h : At pl p) (d : EventData) :
    At (pl.after d) (p.after d) where
  main := by
    change p.main.after d = pl.main.after d
    rw [h.main]
  seen := by
    cases d <;> first
      | exact h.seen
      | exact congrArg (· ++ _) h.seen
  plan := by
    cases d <;> first
      | exact h.plan
      | rfl

theorem At.of_sameMain {pl : Place} {p q : Progress} (h : At pl p) (hs : Progress.SameMain p q) :
    At pl q :=
  ⟨hs.main.trans h.main, hs.seen.trans h.seen, hs.plan.trans h.plan⟩

/-- The main flow between its calls, at a place. -/
structure Stands (x : Setup) (a : Premises) (pl : Place) (s : Run) : Prop where
  resting : Resting x a .main s
  complete : Complete x .main s
  awake : Awake .main s
  place : x.emit = true → At pl s.progress
  jobs : s.jobs = pl.jobs
  opened : ¬ s.progress.Ended
  unanswered : s.outcome = none
  unassembled : pl.main ≠ .answered → ∀ c ∈ s.calls, c.slot ≠ .synthesize

/-- The main flow on its way to a handler. -/
structure Fails (x : Setup) (a : Premises) (s : Run) : Prop where
  resting : Resting x a .main s
  running : s.progress.main ≠ .stopped
  careful : a.careful → s.progress.main ≠ .completed
  unanswered : s.outcome = none

variable {pl : Place}

theorem Fails.of_open (hr : Resting x a .main s) (ho : ¬ s.progress.Ended)
    (hu : s.outcome = none) : Fails x a s :=
  ⟨hr, fun hm => ho (.inr hm), fun _ hm => ho (.inl hm), hu⟩

theorem Stands.fails (h : Stands x a pl s) : Fails x a s :=
  .of_open h.resting h.opened h.unanswered

/-- The main flow's calls are its own or those of workers. -/
theorem slot_of_owned (h : s.Owns c) (hc : c.thread ≠ .main) : c.slot ≠ .synthesize := by
  rcases h with ⟨hm, -⟩ | ⟨n, job, m, -, -, hs⟩
  · exact absurd hm hc
  · rw [hs]
    simp

theorem unassembled_of_steady (hs : Steady .main s s') (hobs : Observed x a (some .main) s')
    (h : ∀ c ∈ s.calls, c.slot ≠ .synthesize) : ∀ c ∈ s'.calls, c.slot ≠ .synthesize := by
  intro c hc
  by_cases ht : c.thread = .main
  · obtain ⟨k, hk⟩ := List.mem_iff_getElem?.mp hc
    exact h c (List.mem_of_getElem? ((hs.ledger.calls k c ht).mpr hk))
  · exact slot_of_owned (hobs.follows.owned c hc) ht

/-- **The main flow tells something.** -/
theorem Stands.wp_event {d : EventData} {Q : Except Exc Unit → Run → Prop}
    (h : Stands x a pl s) (hteller : d.teller = .main) (hplain : d.metrics? = none)
    (hcall : ∀ r, d ≠ .callFinished r)
    (hphase : pl.main = .answered ↔ (pl.after d).main = .answered)
    (hallow : ∀ p : Progress, Progress.SameMain s.progress p → At pl p → p.Allows d)
    (ok : ∀ s', Stands x a (pl.after d) s' → Q (.ok ()) s')
    (fail : ∀ s', Fails x a s' → Q (.error cancelledError) s') :
    (event x .main d).wp (eyes x a .main) Q s := by
  have hkept : ∀ s', Steady .main s s' → s'.toLedger = s.toLedger := fun s' hs =>
    MainRely.idle hs.ledger h.resting.acts
  have hopen : ∀ s', Steady .main s s' → Observed x a (some .main) s' → Acts x .main s' →
      ∀ p, (x.emit = true → SameFor .main s p s'.progress) → ¬ p.Ended → ¬ s'.progress.Ended :=
    fun s' _ hobs hacts p hp hne => open_of_sameFor hobs hacts hp hne
  have hafter : ¬ (s.progress.after d).Ended := by
    intro hend
    rcases Progress.ended_after hend with hend | hm
    · exact h.opened hend
    · rw [hplain] at hm
      cases hm
  refine h.resting.wp_event (by rw [hplain]; rfl) (fun n hn => by cases hn) ?_ ?_ ?_
  · intro s' hset hcomp hs hstory _ he
    have ho := hopen s' hs hset.observed hset.acts _ (fun _ => hstory) h.opened
    exact
      { expects := ⟨fun hm => ho (.inr hm), fun hm => absurd (.inl hm) ho,
          hallow _ hstory ((h.place he).of_sameMain hstory)⟩
        tells := hteller
        done := fun id t k j r hd => by rw [hd] at hteller; cases hteller
        finished := fun r hd => absurd hd (hcall r)
        link := fun k c hc ht hq => absurd (hset.settled k c hc ht).2 hq
        atEnd := fun m hm => by rw [hplain] at hm; cases hm
        told := fun m hm => by rw [hm] at hplain; cases hplain
        completes := fun _ _ hm => by rw [hplain] at hm; cases hm }
  · intro s' hs hw
    have hl := hkept s' hs.steady
    exact ok s'
      { resting := hs.resting, complete := hs.complete h.complete, awake := hw h.awake
        place := fun he => ((h.place he).after d).of_sameMain (hs.story he)
        jobs := (congrArg Ledger.jobs hl).trans h.jobs
        opened := hopen s' hs.steady hs.resting.observed hs.resting.acts _ hs.story hafter
        unanswered := (congrArg Ledger.outcome hl).trans h.unanswered
        unassembled := fun hne => by
          rw [show s'.calls = s.calls from congrArg Ledger.calls hl]
          exact h.unassembled (fun hm => hne (hphase.mp hm)) }
  · rintro s' he (⟨hs, -⟩ | ⟨hs, -⟩)
    · exact fail s' (.of_open hs.resting (hopen s' hs.steady hs.resting.observed hs.resting.acts _
        hs.story h.opened) ((congrArg Ledger.outcome (hkept s' hs.steady)).trans h.unanswered))
    · exact fail s' (.of_open hs.resting (hopen s' hs.steady hs.resting.observed hs.resting.acts _
        hs.story hafter) ((congrArg Ledger.outcome (hkept s' hs.steady)).trans h.unanswered))

/-- The place after a call of the main flow. -/
def Place.called (pl : Place) (slot : Slot) : Place := { pl with main := pl.main.finish slot }

/-- **The main flow makes a call.** -/
theorem Stands.wp_callWithRecord {tier : Tier} {p : Payload}
    {Q : Except Exc (Json × CallRecord) → Run → Prop} (h : Stands x a pl s)
    (hmain : p.slot.isMain = true)
    (hassemble : p.slot = .synthesize → pl.main.finish p.slot = .answered ∧
      ∀ job ∈ pl.jobs, ∃ v, job.outcome = some (.ok v))
    (hphase : pl.main ≠ .answered)
    (hcall : ∀ q, At pl q → q.Calling ⟨p.slot, tier⟩)
    (refused : ∀ e, tier = .cloud → e.cls = .budget → Q (.error e) s)
    (called : ∀ r s', (∀ e, r = .error e → e.isException = true) →
      Stands x a (pl.called p.slot) s' → Q r s')
    (fail : ∀ s', Fails x a s' → Q (.error cancelledError) s') :
    (callWithRecord x .main tier p).wp (eyes x a .main) Q s := by
  refine h.resting.wp_callWithRecord h.complete h.opened (.inl ⟨rfl, hmain⟩)
    (fun hs => by rw [h.jobs]; exact (hassemble hs).2) (fun he => hcall _ (h.place he))
    refused ?_ ?_
  · intro r s' hr hc
    obtain ⟨rec, hkey, hsince⟩ := hc.told
    obtain ⟨hj, -, ho, -⟩ := hsince.went.main rfl h.resting.acts
    have hslot : rec.slot = p.slot := congrArg Key.slot hkey
    refine called r s' hr
      { resting := hc.resting, complete := hc.complete, awake := hc.awake
        place := fun he => ?_
        jobs := hj.trans h.jobs
        opened := open_of_sameFor hc.resting.observed hc.resting.acts hsince.story
          (open_after_callFinished h.opened)
        unanswered := ho.trans h.unanswered
        unassembled := fun hne c hc' => ?_ }
    · have := ((h.place he).after (.callFinished rec)).of_sameMain (hsince.story he)
      refine ⟨this.main.trans ?_, this.seen, this.plan⟩
      change pl.main.finish rec.slot = _
      rw [hslot]
      rfl
    · by_cases ht : c.thread = .main
      · rcases hc.made c hc' ht with hs | ⟨c₀, hc₀, hs⟩
        · rw [hs]
          exact fun hsyn => hne (hassemble hsyn).1
        · rw [← hs]
          exact h.unassembled hphase c₀ hc₀
      · exact slot_of_owned (hc.resting.observed.follows.owned c hc') ht
  · intro s' hc
    obtain ⟨-, -, ho, -⟩ := hc.went.main rfl h.resting.acts
    exact fail s' (.of_open hc.resting hc.opened (ho.trans h.unanswered))

theorem Stands.wp_call {tier : Tier} {p : Payload}
    {Q : Except Exc Json → Run → Prop} (h : Stands x a pl s)
    (hmain : p.slot.isMain = true)
    (hassemble : p.slot = .synthesize → pl.main.finish p.slot = .answered ∧
      ∀ job ∈ pl.jobs, ∃ v, job.outcome = some (.ok v))
    (hphase : pl.main ≠ .answered)
    (hcall : ∀ q, At pl q → q.Calling ⟨p.slot, tier⟩)
    (refused : ∀ e, tier = .cloud → e.cls = .budget → Q (.error e) s)
    (called : ∀ r s', (∀ e, r = .error e → e.isException = true) →
      Stands x a (pl.called p.slot) s' → Q r s')
    (fail : ∀ s', Fails x a s' → Q (.error cancelledError) s') :
    (call x .main tier p).wp (eyes x a .main) Q s := by
  unfold call
  rw [Coro.wp_bind]
  refine h.wp_callWithRecord hmain hassemble hphase hcall refused ?_ fail
  rintro (e | vr) s' hr h'
  · exact called _ s' (fun e' he' => by cases he'; exact hr e rfl) h'
  · exact called _ s' (fun e' he' => by cases he') h'

/-- The main flow writes to the records. -/
theorem Stands.record {t : Run} (h : Stands x a pl s) (hr : Recording .main s t)
    (hout : t.outcome = s.outcome) : Does a .main s t ∧ Stands x a pl t := by
  obtain ⟨hrest, hcomp⟩ := h.resting.record h.opened hr
  have hprog : t.progress = s.progress := hr.scene.progress
  refine ⟨hr.does,
    { resting := hrest, complete := hcomp h.complete
      awake := ⟨by rw [hr.cancels]; exact h.awake.1, fun k hk => by cases hk⟩
      place := by rw [hprog]; exact h.place
      jobs := hr.jobs.trans h.jobs
      opened := by rw [hprog]; exact h.opened
      unanswered := hout.trans h.unanswered
      unassembled := by rw [hr.calls]; exact h.unassembled }⟩

/-! ## Exact extraction -/

section Extract
variable {Q : Except Exc (Option Str) → Run → Prop}

/-- **The opted-in exact copy.** -/
theorem Stands.wp_tryExtract (h : Stands x a pl s) (hmain : pl.main = .opened)
    (hjobs : pl.jobs = [])
    (none : ∀ s', Stands x a { pl with main := .routing } s' → Q (.ok none) s')
    (some : ∀ answer s', Stands x a { pl with main := .accepted } s' → Q (.ok (some answer)) s')
    (fail : ∀ e s', Fails x a s' → Q (.error e) s') :
    (tryExtract x).wp (eyes x a .main) Q s := by
  obtain ⟨main, seen, plan, jobs⟩ := pl
  obtain rfl : main = .opened := hmain
  obtain rfl : jobs = [] := hjobs
  unfold tryExtract
  rw [Coro.wp_bind]
  refine h.wp_event rfl rfl (fun r hr => by cases hr) (by simp [Place.after, MainPhase.after])
    (fun p _ hp => hp.main) (fun s₁ h₁ => ?_) (fail _)
  rw [Coro.outcome_ok, Coro.wp_bind]
  refine h₁.wp_call (p := .attempt x.goal x.sources) rfl (fun hs => by cases hs)
    (by simp [Place.after, MainPhase.after]) (fun p hp => hp.main) (fun e ht => by cases ht)
    (fun r s₂ _ h₂ => ?_) (fail _)
  cases r with
  | error e => exact fail e s₂ h₂.fails
  | ok candidate =>
      rw [Coro.outcome_ok]
      split
      · rw [Coro.wp_bind]
        refine h₂.wp_event rfl rfl (fun r hr => by cases hr)
          (by simp [Place.called, Place.after, MainPhase.after, MainPhase.finish, Payload.slot])
          (fun p _ hp => hp.main) (fun s₃ h₃ => ?_) (fail _)
        rw [Coro.outcome_ok, Coro.wp_pure]
        exact none s₃ h₃
      · rename_i answer _
        rw [Coro.wp_bind, Coro.wp_update]
        have hr : Recording .main s₂ (s₂.setResult "local_answer".toList candidate) :=
          { gathering := fun _ => rfl
            results := fun k hk => Dict.mem_keys_set.mpr (.inr hk)
            others := fun n job hj => by
              rw [h₂.jobs] at hj
              cases hj }
        obtain ⟨hdoes, h₃⟩ := h₂.record hr rfl
        refine ⟨hdoes, ?_⟩
        rw [Coro.outcome_ok, Coro.wp_bind]
        refine h₃.wp_event rfl rfl (fun r hr => by cases hr)
          (by simp [Place.called, Place.after, MainPhase.after, MainPhase.finish, Payload.slot])
          (fun p _ hp => .inl ⟨hp.main, rfl⟩) (fun s₄ h₄ => ?_) (fail _)
        rw [Coro.outcome_ok, Coro.wp_pure]
        exact some answer s₄ h₄

end Extract

/-! ## The local models -/

theorem ne_cloud_of_mem {t : Tier} {tiers : List Tier} (h : t ∈ localTiers tiers) : t ≠ .cloud := by
  simpa using (List.mem_filter.mp h).2

/-- **An answer of a local model.** -/
theorem Stands.wp_sample {t : Tier} {i : ℕ} {Q : Except Exc Assessment → Run → Prop}
    (h : Stands x a pl s) (hmain : pl.main = .judging t i) (ht : t ≠ .cloud)
    (ok : ∀ v s', Stands x a { pl with main := .judging t (i + 1) } s' → Q (.ok v) s')
    (fail : ∀ e s', Fails x a s' → Q (.error e) s') :
    (sample x t i).wp (eyes x a .main) Q s := by
  obtain ⟨main, seen, plan, jobs⟩ := pl
  obtain rfl : main = .judging t i := hmain
  -- what follows the answer, or what stands for it
  have hrest : ∀ (vs : Json × Option TokenStats) (s : Run),
      Stands x a ⟨.sampled t i, seen, plan, jobs⟩ s →
      Coro.wp (eyes x a .main) (do
        let assessment ← Coro.ofExcept (readAssessment x.lib vs.1 vs.2)
        event x .main (.localSample t (i + 1) assessment)
        pure assessment) Q s := by
    intro vs s h
    rw [Coro.wp_bind, Coro.wp_ofExcept]
    cases readAssessment x.lib vs.1 vs.2 with
    | error e => exact fail e s h.fails
    | ok v =>
        rw [Coro.outcome_ok, Coro.wp_bind]
        refine h.wp_event rfl rfl (fun r hr => by cases hr) (by simp [Place.after, MainPhase.after])
          (fun p _ hp => ⟨i, rfl, hp.main⟩) (fun s' h' => ?_) (fail _)
        rw [Coro.outcome_ok, Coro.wp_pure]
        exact ok v s' h'
  unfold sample exceptRelay
  rw [Coro.wp_bind, Coro.wp_tryExcept, Coro.wp_bind]
  refine h.wp_callWithRecord (p := .solve x.text ((25 + 15 * i) / 100) (i + 1) t) rfl
    (fun hs => by cases hs) (by simp) (fun p hp => ⟨i, rfl, .inl hp.main⟩)
    (fun e hc => absurd hc ht) (fun r s' _ h' => ?_) ?_
  · cases r with
    | error e =>
        rw [Coro.outcome_error, Coro.outcome_error]
        split
        · rw [Coro.wp_pure, Coro.outcome_ok]
          exact hrest (failedAnswer _, none) s' h'
        · rw [Coro.wp_raise, Coro.outcome_error]
          exact fail e s' h'.fails
    | ok vr =>
        rw [Coro.outcome_ok, Coro.wp_pure, Coro.outcome_ok, Coro.outcome_ok]
        exact hrest (vr.1, vr.2.tokenStats) s' h'
  · intro s' h'
    rw [Coro.outcome_error, Coro.outcome_error, if_neg (by decide), Coro.wp_raise,
      Coro.outcome_error]
    exact fail _ s' h'

/-- **The answers of a local model.** By induction on the number of answers asked for. -/
theorem Stands.wp_samplesFrom {t : Tier} {m i : ℕ}
    {Q : Except Exc (List Assessment) → Run → Prop}
    (h : Stands x a pl s) (hmain : pl.main = .judging t i) (ht : t ≠ .cloud)
    (ok : ∀ vs s', (0 < m → vs ≠ []) →
      Stands x a { pl with main := .judging t (i + vs.length) } s' → Q (.ok vs) s')
    (fail : ∀ e s', Fails x a s' → Q (.error e) s') :
    (samplesFrom x t m i).wp (eyes x a .main) Q s := by
  induction m generalizing i s pl Q with
  | zero =>
      obtain ⟨main, seen, plan, jobs⟩ := pl
      obtain rfl : main = .judging t i := hmain
      exact ok [] s (fun h => absurd h (Nat.lt_irrefl 0)) h
  | succ m ih =>
      unfold samplesFrom
      rw [Coro.wp_bind]
      refine h.wp_sample hmain ht (fun v s₁ h₁ => ?_) fail
      rw [Coro.outcome_ok]
      split
      · rw [Coro.wp_pure]
        exact ok [v] s₁ (fun _ => by simp) h₁
      · rw [Coro.wp_bind]
        refine ih h₁ rfl (fun vs s₂ _ h₂ => ?_) fail
        rw [Coro.outcome_ok, Coro.wp_pure]
        refine ok (v :: vs) s₂ (fun _ => by simp) ?_
        rw [List.length_cons, ← Nat.add_assoc, Nat.add_right_comm]
        exact h₂

theorem readCritique_not_skipped {lib : StdLib} {v : Json} {c : Critique}
    (h : readCritique lib v = .ok c) : c.skipped = false := by
  unfold readCritique at h
  split at h
  · rename_i severity _
    cases hs : readNumber lib 1 severity with
    | error e =>
        rw [hs] at h
        cases h
    | ok q =>
        rw [hs] at h
        cases h
        rfl
  · cases h
    rfl

/-- The place after a local model's answers were checked. -/
def critiquePhase (t : Tier) (n : ℕ) (c : Critique) : MainPhase :=
  if c.skipped then .judging t n else .critiqued t n

/-- **The check of a local model's answers.** -/
theorem Stands.wp_critiqueOf {t : Tier} {samples : List Assessment}
    {Q : Except Exc Critique → Run → Prop} (h : Stands x a pl s)
    (hmain : pl.main = .judging t samples.length) (hsamples : samples ≠ [])
    (ht : t ∈ localTiers x.tiers)
    (ok : ∀ c s', Stands x a { pl with main := critiquePhase t samples.length c } s' → Q (.ok c) s')
    (fail : ∀ e s', Fails x a s' → Q (.error e) s') :
    (critiqueOf x t samples).wp (eyes x a .main) Q s := by
  obtain ⟨main, seen, plan, jobs⟩ := pl
  obtain rfl : main = .judging t samples.length := hmain
  have hcritic : x.policy.criticTier t x.tiers ≠ .cloud :=
    ne_cloud_of_mem (x.policy.criticTier_mem ht)
  obtain ⟨m, hm⟩ := Nat.exists_eq_succ_of_ne_zero (List.length_pos_of_ne_nil hsamples).ne'
  unfold critiqueOf
  simp only
  split
  · rw [Coro.wp_pure]
    exact ok _ s h
  · split
    · rw [Coro.wp_pure]
      exact ok _ s h
    · rw [Coro.wp_bind]
      refine h.wp_event rfl rfl (fun r hr => by cases hr)
        (by simp [Place.after, MainPhase.after, MainPhase.critique])
        (fun p _ hp => ⟨m, by rw [hp.main, hm]⟩) (fun s₁ h₁ => ?_) (fail _)
      rw [Coro.outcome_ok]
      unfold exceptRelay
      rw [Coro.wp_tryExcept, Coro.wp_bind]
      refine h₁.wp_call (p := .critique x.text ((samples.head?.map Assessment.answer).getD [])
        (samples.length + 1) t) rfl (fun hs => by cases hs)
        (by simp [Place.after, MainPhase.after, MainPhase.critique])
        (fun p hp => ⟨samples.length, rfl, .inr hp.main⟩) (fun e hc => absurd hc hcritic)
        (fun r s₂ _ h₂ => ?_) ?_
      · cases r with
        | error e =>
            rw [Coro.outcome_error, Coro.outcome_error]
            split
            · rw [Coro.wp_pure]
              exact ok _ s₂ h₂
            · exact fail e s₂ h₂.fails
        | ok raw =>
            rw [Coro.outcome_ok, Coro.wp_bind, Coro.wp_ofExcept]
            cases hc : readCritique x.lib raw with
            | error e =>
                rw [Coro.outcome_error, Coro.outcome_error]
                split
                · rw [Coro.wp_pure]
                  exact ok _ s₂ h₂
                · exact fail e s₂ h₂.fails
            | ok c =>
                rw [Coro.outcome_ok, Coro.wp_pure, Coro.outcome_ok]
                refine ok _ s₂ ?_
                unfold critiquePhase
                rw [if_neg (by simp [readCritique_not_skipped hc])]
                exact h₂
      · intro s₂ h₂
        rw [Coro.outcome_error, Coro.outcome_error, if_neg (by decide)]
        exact fail _ s₂ h₂

/-- **One local model.** -/
theorem Stands.wp_judgeLocally {t : Tier} {Q : Except Exc Verdict → Run → Prop}
    (h : Stands x a pl s) (hmain : pl.main = .opened ∨ pl.main = .routing) (hseen : t ∉ pl.seen)
    (ht : t ∈ localTiers x.tiers)
    (ok : ∀ v s', Stands x a { pl with
        main := if v.escalate then .routing else .trusted t
        seen := pl.seen ++ [t] } s' → Q (.ok v) s')
    (fail : ∀ e s', Fails x a s' → Q (.error e) s') :
    (judgeLocally x t).wp (eyes x a .main) Q s := by
  obtain ⟨main, seen, plan, jobs⟩ := pl
  unfold judgeLocally
  rw [Coro.wp_bind]
  refine h.wp_event rfl rfl (fun r hr => by cases hr) ?_ (fun p _ hp => ⟨?_, ?_⟩)
    (fun s₁ h₁ => ?_) (fail _)
  · rcases hmain with hmain | hmain <;> simp only at hmain <;> subst hmain <;>
      simp [Place.after, MainPhase.after]
  · exact hmain.imp (hp.main.trans ·) (hp.main.trans ·)
  · rw [hp.seen]
    exact hseen
  rw [Coro.outcome_ok, Coro.wp_bind]
  refine h₁.wp_samplesFrom rfl (ne_cloud_of_mem ht) (fun samples s₂ hne h₂ => ?_) fail
  rw [Nat.zero_add] at h₂
  rw [Coro.outcome_ok, Coro.wp_bind]
  refine h₂.wp_critiqueOf rfl (hne x.policy.localSamples_pos) ht (fun c s₃ h₃ => ?_) fail
  rw [Coro.outcome_ok, Coro.wp_bind, Coro.wp_ofExcept]
  cases hv : x.policy.decide x.lib t x.text samples c with
  | error e => exact fail e s₃ h₃.fails
  | ok v =>
      obtain ⟨-, -, hcrit⟩ := x.policy.decide_eq_ok hv
      rw [Coro.outcome_ok, Coro.wp_bind]
      refine h₃.wp_event rfl rfl (fun r hr => by cases hr) ?_ (fun p _ hp => ?_)
        (fun s₄ h₄ => ?_) (fail _)
      · refine iff_of_false ?_ ?_
        · simp only [critiquePhase]
          split <;> simp
        · simp only [Place.after, MainPhase.after]
          split <;> simp
      · have hm := hp.main
        simp only [critiquePhase] at hm
        simp only [Progress.Allows]
        rw [hcrit]
        split at hm
        · rename_i hs
          rw [if_pos hs]
          exact ⟨_, hm⟩
        · rename_i hs
          rw [if_neg hs]
          exact ⟨_, hm⟩
      · rw [Coro.outcome_ok, Coro.wp_pure]
        exact ok v s₄ h₄

/-- **The cascade.** By induction on the tiers that are left. -/
theorem Stands.wp_cascade {tiers : List Tier} {Q : Except Exc (Option Str) → Run → Prop}
    (h : Stands x a pl s) (hmain : pl.main = .opened ∨ pl.main = .routing)
    (hsub : ∀ t ∈ tiers, t ∈ localTiers x.tiers ∧ t ∉ pl.seen) (hnodup : tiers.Nodup)
    (none : ∀ pl' s', pl'.main = .opened ∨ pl'.main = .routing → pl'.plan = pl.plan →
      pl'.jobs = pl.jobs → Stands x a pl' s' → Q (.ok none) s')
    (some : ∀ answer pl' s', pl'.main = .accepted → pl'.plan = pl.plan → pl'.jobs = pl.jobs →
      Stands x a pl' s' → Q (.ok (some answer)) s')
    (fail : ∀ e s', Fails x a s' → Q (.error e) s') :
    (cascade x tiers).wp (eyes x a .main) Q s := by
  induction tiers generalizing s pl with
  | nil => exact none pl s hmain rfl rfl h
  | cons t tiers ih =>
      obtain ⟨ht, hseen⟩ := hsub t (by simp)
      obtain ⟨hnot, hnodup⟩ := List.nodup_cons.mp hnodup
      have hlater : ∀ u ∈ tiers, u ∈ localTiers x.tiers ∧ u ∉ pl.seen ++ [t] := by
        intro u hu
        obtain ⟨hloc, hun⟩ := hsub u (by simp [hu])
        refine ⟨hloc, fun hmem => ?_⟩
        rcases List.mem_append.mp hmem with hmem | hmem
        · exact hun hmem
        · obtain rfl := List.mem_singleton.mp hmem
          exact hnot hu
      have hphase : pl.main ≠ .answered := by
        rcases hmain with hmain | hmain <;> rw [hmain] <;> simp
      unfold cascade
      simp only
      split
      · rw [Coro.wp_bind, Coro.wp_update]
        obtain ⟨hdoes, h₁⟩ := h.record (t := { s with skipped := s.skipped ++ [t] }) .unseen rfl
        refine ⟨hdoes, ?_⟩
        rw [Coro.outcome_ok, Coro.wp_bind]
        refine h₁.wp_event rfl rfl (fun r hr => by cases hr)
          (iff_of_false hphase (by simp [Place.after, MainPhase.after]))
          (fun p _ hp =>
            ⟨hmain.imp (hp.main.trans ·) (hp.main.trans ·), by rw [hp.seen]; exact hseen⟩)
          (fun s₂ h₂ => ?_) (fail _)
        rw [Coro.outcome_ok]
        exact ih h₂ (.inr rfl) hlater hnodup none some
      · rw [Coro.wp_bind]
        refine h.wp_judgeLocally hmain hseen ht (fun v s₁ h₁ => ?_) fail
        rw [Coro.outcome_ok, Coro.wp_bind, Coro.wp_update]
        obtain ⟨hdoes, h₂⟩ :=
          h₁.record (t := { s₁ with verdicts := s₁.verdicts ++ [v] }) .unseen rfl
        refine ⟨hdoes, ?_⟩
        rw [Coro.outcome_ok]
        split
        · rename_i hesc
          rw [if_pos hesc] at h₂
          exact ih h₂ (.inr rfl) hlater hnodup none some
        · rename_i hesc
          rw [if_neg hesc] at h₂
          rw [Coro.wp_bind, Coro.wp_update]
          obtain ⟨hdoes, h₃⟩ := h₂.record
            (t := { ({ s₁ with verdicts := s₁.verdicts ++ [v] } : Run) with
              route := Option.some t })
            .unseen rfl
          refine ⟨hdoes, ?_⟩
          rw [Coro.outcome_ok, Coro.wp_bind]
          refine h₃.wp_event rfl rfl (fun r hr => by cases hr)
            (by simp [Place.after, MainPhase.after]) (fun p _ hp => .inr hp.main)
            (fun s₄ h₄ => ?_) (fail _)
          rw [Coro.outcome_ok, Coro.wp_pure]
          exact some _ ⟨.accepted, pl.seen ++ [t], pl.plan, pl.jobs⟩ s₄ rfl rfl rfl h₄

end HorizonRelay.Observed
