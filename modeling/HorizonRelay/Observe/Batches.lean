import HorizonRelay.Observe.MainFlow

/-!
# Batches, as observers see them

While the jobs of a batch run, the main flow tells nothing: it stands where the plan was
told.  When they are over it stands there again, with more jobs behind it.

## Main definitions

* `Ran` — what is left of a plan between two batches.
* `Batching` — the main flow while the jobs of a batch run.

## Main results

* `Ran.wp_batch`, `Ran.wp_runBatches` — one batch, and all of them.
-/

namespace HorizonRelay.Observed

open Py Coop

variable {x : Setup} {a : Premises} {s s' : Run} {pl : Place}
  {tasks pending ready : List Task}

/-! ## What is left of a plan -/

/-- The tasks of a plan that have not been run, and the jobs of the others. -/
structure Ran (tasks pending : List Task) (jobs : List Job) : Prop where
  fit : PlanFit tasks
  within : pending.Sublist tasks
  returned : ∀ job ∈ jobs, ∃ v, job.outcome = some (.ok v)
  ran : ∀ t ∈ tasks, t ∉ pending → ∃ job ∈ jobs, job.task = t
  planned : ∀ job ∈ jobs, job.task ∈ tasks ∧ job.task ∉ pending
  ids : (jobs.map fun job => job.task.id).Nodup

theorem Ran.start (h : PlanFit tasks) : Ran tasks tasks [] where
  fit := h
  within := .refl _
  returned _ hj := by cases hj
  ran _ ht hnot := absurd ht hnot
  planned _ hj := by cases hj
  ids := List.nodup_nil

/-- The ids of the jobs of a batch are new. -/
theorem Ran.nodup {jobs : List Job} (h : Ran tasks pending jobs) (hr : ready.Sublist pending) :
    (jobs.map (fun job => job.task.id) ++ ready.map Task.id).Nodup := by
  refine List.Nodup.append h.ids (h.fit.ids.sublist ((hr.trans h.within).map _)) ?_
  intro k hk hk'
  obtain ⟨job, hj, rfl⟩ := List.mem_map.mp hk
  obtain ⟨t, ht, heq⟩ := List.mem_map.mp hk'
  obtain ⟨hmem, hnot⟩ := h.planned job hj
  have hpend := hr.subset ht
  rw [List.inj_on_of_nodup_map h.fit.ids (h.within.subset hpend) hmem heq] at hpend
  exact hnot hpend

/-- A batch was run. -/
theorem Ran.batch {jobs jobs' : List Job} (h : Ran tasks pending jobs)
    (hr : ready.Sublist pending)
    (htasks : jobs'.map Job.task = jobs.map Job.task ++ ready)
    (hret : ∀ job ∈ jobs', ∃ v, job.outcome = some (.ok v)) :
    Ran tasks (pending.filter fun t => !ready.contains t) jobs' := by
  have hmem : ∀ t, t ∈ jobs'.map Job.task ↔ t ∈ jobs.map Job.task ∨ t ∈ ready := fun t => by
    rw [htasks, List.mem_append]
  refine
    { fit := h.fit, within := List.filter_sublist.trans h.within, returned := hret
      ran := fun t ht hnot => ?_, planned := fun job hj => ?_, ids := ?_ }
  · have hjob : t ∈ jobs'.map Job.task := by
      rw [hmem]
      by_cases hp : t ∈ pending
      · right
        by_contra hnr
        exact hnot (List.mem_filter.mpr ⟨hp, by simpa using hnr⟩)
      · obtain ⟨job, hj, rfl⟩ := h.ran t ht hp
        exact .inl (List.mem_map_of_mem hj)
    obtain ⟨job, hj, heq⟩ := List.mem_map.mp hjob
    exact ⟨job, hj, heq⟩
  · rw [List.mem_filter]
    rcases (hmem job.task).mp (List.mem_map_of_mem hj) with hold | hnew
    · obtain ⟨job₀, hj₀, heq⟩ := List.mem_map.mp hold
      obtain ⟨ht, hnot⟩ := h.planned job₀ hj₀
      rw [heq] at ht hnot
      exact ⟨ht, fun hk => hnot hk.1⟩
    · exact ⟨h.within.subset (hr.subset hnew), fun hk => by simpa [hnew] using hk.2⟩
  · have hids := congrArg (List.map Task.id) htasks
    simp only [List.map_map, List.map_append] at hids
    rw [show (jobs'.map fun job => job.task.id) = _ from hids]
    exact h.nodup hr

/-! ## Inside a batch -/

/-- The main flow while the jobs of a batch run: its calls are over and were told. -/
structure Batching (x : Setup) (a : Premises) (pl : Place) (ready : List Task) (s : Run) :
    Prop where
  observed : Observed x a (some .main) s
  free : Free .main s
  settled : ∀ (k : ℕ) (c : Call), s.calls[k]? = some c → c.thread = .main →
    c.ended.isSome ∧ s.Quiet k
  complete : Complete x .main s
  place : x.emit = true → At pl s.progress
  opened : ¬ s.progress.Ended
  unanswered : s.outcome = none
  unassembled : ∀ c ∈ s.calls, c.slot ≠ .synthesize
  tasks : s.jobs.map Job.task = pl.jobs.map Job.task ++ ready
  prior : ∀ n < pl.jobs.length, s.jobs[n]? = pl.jobs[n]?

/-- A main flow whose calls were all told has told all their outputs in time. -/
theorem calm_of_complete (hobs : Observed x a (some .main) s) (h : Complete x .main s) :
    ∀ c ∈ s.calls, c.thread = .main → c.key ∈ s.progress.outputs →
      c.key ∈ s.progress.finished := by
  intro c hc ht hk
  by_cases he : x.emit = true
  · exact h he c hc ht
  · rw [progress_silent hobs he] at hk
    cases hk

/-- When no job runs any more, the main flow is between its calls. -/
theorem Batching.resting (h : Batching x a pl ready s) (hidle : ∀ n, s.running n = false) :
    Resting x a .main s where
  observed := h.observed
  acts := hidle
  settled := h.settled
  calm _ := calm_of_complete h.observed h.complete
  free := h.free

theorem Batching.fails (h : Batching x a pl ready s) (hidle : ∀ n, s.running n = false) :
    Fails x a s :=
  .of_open (h.resting hidle) h.opened h.unanswered

/-- The others go on. -/
theorem Batching.of_relies (h : Batching x a pl ready s) (hr : Relies a .main s s')
    (hobs : Observed x a none s') (hret : ∀ job ∈ pl.jobs, ∃ v, job.outcome = some (.ok v)) :
    Batching x a pl ready s' := by
  have hled : MainRely s.toLedger s'.toLedger := hr.ledger
  have hstory : s.progress.SameMain s'.progress := hr.story
  have hback : ∀ (k : ℕ) (c : Call), s'.calls[k]? = some c → c.thread = .main →
      s.calls[k]? = some c := fun k c hc hi => (hled.calls k c hi).mpr hc
  refine
    { observed := hobs.wake .main, free := free_of_relies hr h.free
      settled := fun k c hc hi => ?_, complete := fun he c hc hi => ?_
      place := fun he => (h.place he).of_sameMain hstory
      opened := fun hend => h.opened ?_
      unanswered := hled.outcome.trans h.unanswered
      unassembled := unassembled_of_steady hr.toSteady (hobs.wake .main) h.unassembled
      tasks := hled.tasks.trans h.tasks, prior := fun n hn => ?_ }
  · have hc' := hback k c hc hi
    obtain ⟨hend, hq⟩ := h.settled k c hc' hi
    exact ⟨hend, (hr.toSteady.quiet hc' hi).mpr hq⟩
  · obtain ⟨k, hk⟩ := List.mem_iff_getElem?.mp hc
    have hc' := List.mem_of_getElem? (hback k c hk hi)
    rcases h.observed.follows.owned c hc' with ⟨-, hm⟩ | ⟨n, job, m, hn, -, -⟩
    · exact (hstory.finished c.key hm).mpr (h.complete he c hc' hi)
    · rw [hi] at hn
      cases hn
  · unfold Progress.Ended at hend ⊢
    rwa [hstory.main] at hend
  · have hjob := h.prior n hn
    rw [← hjob]
    refine hled.done n ?_
    obtain ⟨v, hv⟩ := hret _ (List.getElem_mem hn)
    simp [Ledger.running, hjob, List.getElem?_eq_getElem hn, hv]

/-- The lock, the cancellations and what is gathered may change. -/
theorem Batching.congr (h : Batching x a pl ready s) (hledger : s'.toLedger = s.toLedger)
    (hlog : s'.log = s.log) (hlives : s'.lives = s.lives) (hlock : s'.eventLock = s.eventLock)
    (hseq : s'.seq = s.seq) (hnumber : s'.number = s.number) (hcancels : s'.cancels.Nodup)
    (hspread : ∀ i, i ≠ .main → i ∈ s.cancels → i ∈ s'.cancels) :
    Batching x a pl ready s' := by
  have hprog : s'.progress = s.progress := progress_congr (by rw [hlog])
  have hcalls : s'.calls = s.calls := congrArg Ledger.calls hledger
  have hjobs : s'.jobs = s.jobs := congrArg Ledger.jobs hledger
  have hquiet : ∀ k, s'.Quiet k ↔ s.Quiet k := fun k => by
    unfold Run.Quiet Run.live
    rw [hlives]
  refine
    { observed := h.observed.congr hledger (hlog ▸ .refl _) hlives (fun hne => absurd rfl hne) ?_
        (fun _ _ hj => hlock ▸ hj) hcancels (fun i hi => hnumber ▸ hi)
      free := by
        have := h.free
        unfold Free at this ⊢
        rwa [hlock]
      settled := fun k c hc hi => ?_
      complete := by
        unfold Complete
        rw [hcalls, hprog]
        exact h.complete
      place := by rw [hprog]; exact h.place
      opened := by rw [hprog]; exact h.opened
      unanswered := (congrArg Ledger.outcome hledger).trans h.unanswered
      unassembled := by rw [hcalls]; exact h.unassembled
      tasks := by rw [hjobs]; exact h.tasks
      prior := by rw [hjobs]; exact h.prior }
  · refine h.observed.queue.congr hlock hlog hseq hnumber fun j hj hc => hspread j ?_ hc
    rintro rfl
    exact h.free.2 hj
  · rw [hcalls] at hc
    rw [hquiet]
    exact h.settled k c hc hi

/-- A write of the main flow that observers do not see. -/
theorem does_of_main (hlog : s'.log = s.log) (hcalls : s'.calls = s.calls)
    (hlives : s'.lives = s.lives) (hlock : s'.eventLock = s.eventLock)
    (hnumber : s'.number = s.number) (hcancels : ∀ i, i ≠ .main → i ∈ s.cancels → i ∈ s'.cancels) :
    Does a .main s s' where
  told := ⟨[], by rw [hlog, List.append_nil], by simp⟩
  accepts h := hlog ▸ h
  held j _ hj := ⟨hlock ▸ hj, by rw [hlog], by rw [hlog]⟩
  free j _ hj := hlock ▸ hj
  waiting j _ := by rw [hlock]
  number j _ := by rw [hnumber]
  cancels := hcancels
  spares hi := absurd rfl hi
  keys k c hc := ⟨c, by rw [hcalls, hc], rfl, rfl⟩
  lives k c _ _ := by
    unfold Run.live
    rw [hlives]
    exact ⟨rfl, rfl⟩
  stops k _ := by
    unfold Run.live
    rw [hlives]
    exact ⟨id, .inl⟩
  calls _ _ := hcalls
  tasks hi := absurd rfl hi
  gathering hi := absurd rfl hi

/-! ## The requests of a batch -/

/-- The jobs of a list that are not done are asked to stop; nothing else happens. -/
theorem cancelJobs_spreads (js : List ℕ) (s : Run) : ∃ cancels,
    Run.cancelJobs js s = { s with cancels } ∧ s.cancels ⊆ cancels ∧
      (s.cancels.Nodup → cancels.Nodup) ∧ (Thread.main ∈ cancels → .main ∈ s.cancels) := by
  unfold Run.cancelJobs
  generalize js.filter s.toLedger.running = ns
  induction ns generalizing s with
  | nil => exact ⟨s.cancels, rfl, List.Subset.refl _, id, id⟩
  | cons n ns ih =>
      obtain ⟨cancels, heq, hsub, hnodup, hmain⟩ := ih (s.cancel (.job n))
      refine ⟨cancels, heq, fun i hi => hsub (mem_cancel.mpr (.inl hi)),
        fun h => hnodup (nodup_cancel h), fun h => ?_⟩
      rcases mem_cancel.mp (hmain h) with h | h
      · exact h
      · cases h

/-- The main flow waits for jobs it gathers. -/
theorem Batching.wp_ask {op : Op} {js : List ℕ} {Q : Except Exc (Ans op) → Run → Prop}
    (h : Batching x a pl ready s) (hgather : s.gathering = some js)
    (hjs : ∀ n, s.running n = true → n ∈ js)
    (hret : ∀ job ∈ pl.jobs, ∃ v, job.outcome = some (.ok v))
    (hleave : ∀ s₁ s₂, leave .main op s₁ = s₂ → s₂ = (s₁.uncancel .main).gathered)
    (hanswer : ∀ s₁ r s₂ m, answerOp x .main op s₁ m = some (r, s₂) → s₂ = s₁.gathered)
    (hop : op.isForeign = false) (hsuits : Suits .main s op)
    (answered : ∀ s₁ r m, Batching x a pl ready s₁.gathered → MainRely s.toLedger s₁.toLedger →
      s₁.toLedger.Ok x anyEnd → .main ∉ s₁.cancels →
      answerOp x .main op s₁ m = some (r, s₁.gathered) → Q r s₁.gathered)
    (cancelled : ∀ s₁ s₂, Batching x a pl ready s₂ → s₂.toLedger = s₁.toLedger →
      op.interruptible s₁ = true → Q (.error cancelledError) s₂) :
    (ask op).wp (eyes x a .main) Q s := by
  refine Observed.wp_ask (h.observed.park (fun n hn => ⟨js, hgather, hjs n hn⟩)
    fun k c hc hi _ _ => .inl (h.settled k c hc hi).2)
    (fun s₁ m r s₂ hr hs₁ hok _ ha => ?_) hsuits
  have h₁ := h.of_relies hr hs₁ hret
  rcases answer_cases ha with ⟨-, hc, hint, rfl, heq⟩ | ⟨-, hc, ha⟩
  · obtain rfl := hleave _ _ heq.symm
    refine cancelled s₁ _ (h₁.congr rfl rfl rfl rfl rfl rfl (hs₁.works.cancels.erase _)
      fun i hi hmem => (List.mem_erase_of_ne hi).mpr hmem) rfl hint
  · obtain rfl := hanswer _ _ _ _ ha
    refine answered s₁ r m (h₁.congr rfl rfl rfl rfl rfl rfl hs₁.works.cancels fun _ _ hi => hi)
      hr.ledger hok (fun hmem => ?_) ha
    rw [hc hmem] at hop
    cases hop

/-- **Gathering jobs.** -/
theorem Batching.wp_gather {js : List ℕ} {Q : Except Exc (List Json) → Run → Prop}
    (h : Batching x a pl ready s) (hjs : ∀ n, s.running n = true → n ∈ js)
    (hret : ∀ job ∈ pl.jobs, ∃ v, job.outcome = some (.ok v))
    (ok : ∀ values s', Batching x a pl ready s' → s'.toLedger.Ok x anyEnd → Awake .main s' →
      js.mapM s'.toLedger.valueOf = some values → Q (.ok values) s')
    (error : ∀ e s', Batching x a pl ready s' → Q (.error e) s') :
    (gather js).wp (eyes x a .main) Q s := by
  unfold gather
  rw [Coro.wp_bind, Coro.wp_update]
  refine ⟨does_of_main rfl rfl rfl rfl rfl fun _ _ hi => hi, ?_⟩
  rw [Coro.outcome_ok]
  have h' : Batching x a pl ready { s with gathering := some js, gatherCancelled := false } :=
    h.congr rfl rfl rfl rfl rfl rfl h.observed.works.cancels fun _ _ hi => hi
  refine h'.wp_ask rfl hjs hret (fun _ _ heq => heq.symm) (fun s₁ r s₂ m ha => ?_) rfl rfl
    (fun s₁ r m h₁ _ hok hc ha => ?_) fun s₁ s₂ h₂ _ _ => error _ s₂ h₂
  · exact (answerGather_cases (ordinary_eq_some ha).2).1
  · obtain ⟨-, ⟨e, rfl, -⟩ | rfl | ⟨values, rfl, hv⟩⟩ := answerGather_cases (ordinary_eq_some ha).2
    · exact error _ _ h₁
    · exact error _ _ h₁
    · exact ok values _ h₁ hok ⟨hc, fun k hk => by cases hk⟩ hv

/-- **Waiting for jobs to end.** -/
theorem Batching.wp_join {js : List ℕ} {Q : Except Exc Unit → Run → Prop}
    (h : Batching x a pl ready s) (hjs : ∀ n, s.running n = true → n ∈ js)
    (hret : ∀ job ∈ pl.jobs, ∃ v, job.outcome = some (.ok v))
    (ok : ∀ s', Batching x a pl ready s' → MainRely s.toLedger s'.toLedger → Awake .main s' →
      js.any s'.toLedger.running = false → Q (.ok ()) s')
    (error : ∀ s', Batching x a pl ready s' → js.any s'.toLedger.running = false →
      Q (.error cancelledError) s') :
    (join js).wp (eyes x a .main) Q s := by
  unfold join
  rw [Coro.wp_bind, Coro.wp_update]
  refine ⟨does_of_main rfl rfl rfl rfl rfl fun _ _ hi => hi, ?_⟩
  rw [Coro.outcome_ok]
  have h' : Batching x a pl ready { s with gathering := some js, gatherCancelled := false } :=
    h.congr rfl rfl rfl rfl rfl rfl h.observed.works.cancels fun _ _ hi => hi
  refine h'.wp_ask rfl hjs hret (fun _ _ heq => heq.symm) (fun s₁ r s₂ m ha => ?_) rfl rfl
    (fun s₁ r m h₁ hr _ hc ha => ?_) fun s₁ s₂ h₂ hl hint => ?_
  · exact (answerJoin_cases (ordinary_eq_some ha).2).1
  · obtain ⟨-, hrun, rfl | rfl⟩ := answerJoin_cases (ordinary_eq_some ha).2
    · exact ok _ h₁ hr ⟨hc, fun k hk => by cases hk⟩ hrun
    · exact error _ h₁ hrun
  · refine error s₂ h₂ ?_
    rw [hl]
    simpa [Op.interruptible] using hint

/-! ## One batch -/

/-- The jobs of the batch. -/
def Place.batch (pl : Place) (ready : List Task) : List ℕ :=
  List.range' pl.jobs.length ready.length

theorem Batching.prior_over (h : Batching x a pl ready s)
    (hret : ∀ job ∈ pl.jobs, ∃ v, job.outcome = some (.ok v)) {n : ℕ} (hn : n < pl.jobs.length) :
    s.running n = false := by
  obtain ⟨v, hv⟩ := hret _ (List.getElem_mem hn)
  simp [Ledger.running, h.prior n hn, List.getElem?_eq_getElem hn, hv]

theorem Batching.jobs_length (h : Batching x a pl ready s) :
    s.jobs.length = pl.jobs.length + ready.length := by
  have := congrArg List.length h.tasks
  simpa using this

/-- A job that runs is one of the batch. -/
theorem Batching.mem_batch (h : Batching x a pl ready s)
    (hret : ∀ job ∈ pl.jobs, ∃ v, job.outcome = some (.ok v)) {n : ℕ} (hn : s.running n = true) :
    n ∈ pl.batch ready := by
  refine List.mem_range'_1.mpr ⟨?_, ?_⟩
  · by_contra hlt
    rw [h.prior_over hret (by omega)] at hn
    cases hn
  · rw [← h.jobs_length]
    exact lt_of_running hn

/-- When the jobs of the batch are over, all jobs are. -/
theorem Batching.idle (h : Batching x a pl ready s)
    (hret : ∀ job ∈ pl.jobs, ∃ v, job.outcome = some (.ok v))
    (hjs : (pl.batch ready).any s.toLedger.running = false) (n : ℕ) : s.running n = false := by
  by_contra hn
  have hn : s.running n = true := by simpa using hn
  rw [List.any_eq_false] at hjs
  exact hjs n (h.mem_batch hret hn) hn

/-- The job of a task of the batch. -/
theorem Batching.job (h : Batching x a pl ready s) {i : ℕ} {t : Task} (hi : ready[i]? = some t) :
    ∃ job, s.jobs[pl.jobs.length + i]? = some job ∧ job.task = t := by
  have hget : (s.jobs.map Job.task)[pl.jobs.length + i]? = some t := by
    rw [h.tasks, List.getElem?_append_right (by simp), List.length_map, Nat.add_sub_cancel_left, hi]
  rw [List.getElem?_map] at hget
  exact Option.map_eq_some_iff.mp hget

/-- When every job of the batch returned a value, every job did, and the results are theirs. -/
theorem Batching.returned (h : Batching x a pl ready s) (hok : s.toLedger.Ok x anyEnd)
    (hret : ∀ job ∈ pl.jobs, ∃ v, job.outcome = some (.ok v)) {values : List Json}
    (hv : (pl.batch ready).mapM s.toLedger.valueOf = some values) :
    (∀ e ∈ ready.zip values, s.results.get? e.1.id = some e.2) ∧
      ∀ job ∈ s.jobs, ∃ v, job.outcome = some (.ok v) := by
  have hget : ∀ i < ready.length, ∃ v job, values[i]? = some v ∧
      s.jobs[pl.jobs.length + i]? = some job ∧ job.outcome = some (.ok v) := by
    intro i hi
    obtain ⟨v, hvi, hval⟩ := getElem?_of_mapM_eq_some hv (i := i) (a := pl.jobs.length + i)
      (by rw [Place.batch, List.getElem?_range' hi, Nat.one_mul])
    obtain ⟨job, hj, hout⟩ := exists_of_valueOf hval
    exact ⟨v, job, hvi, hj, hout⟩
  refine ⟨fun e he => ?_, fun job hj => ?_⟩
  · obtain ⟨i, hi⟩ := List.mem_iff_getElem?.mp he
    obtain ⟨ht, hvi⟩ := List.getElem?_zip_eq_some.mp hi
    obtain ⟨v, job, hv', hj, hout⟩ := hget i (List.getElem?_eq_some_iff.mp ht).1
    obtain ⟨job', hj', htask⟩ := h.job ht
    obtain rfl := Option.some.inj (hj.symm.trans hj')
    rw [← htask, (hok.jobs _ _ hj).returned v hout, hv'.symm.trans hvi]
  · obtain ⟨n, hn⟩ := List.mem_iff_getElem?.mp hj
    by_cases hlt : n < pl.jobs.length
    · have hold := h.prior n hlt
      rw [hn, List.getElem?_eq_getElem hlt] at hold
      exact hret job (Option.some.inj hold ▸ List.getElem_mem hlt)
    · have hlen := (List.getElem?_eq_some_iff.mp hn).1
      rw [h.jobs_length] at hlen
      obtain ⟨v, job', -, hj', hout⟩ := hget (n - pl.jobs.length) (by omega)
      rw [Nat.add_sub_cancel' (by omega)] at hj'
      obtain rfl := Option.some.inj (hn.symm.trans hj')
      exact ⟨v, hout⟩

/-- **The jobs of a batch are created.** -/
theorem Stands.addJobs (h : Stands x a pl s) (hran : Ran tasks pending pl.jobs)
    (hplan : pl.plan = some tasks) (hmain : pl.main = .planned) (hready : ready.Sublist pending) :
    Does a .main s (s.addJobs ready) ∧ Batching x a pl ready (s.addJobs ready) := by
  have hobs := h.resting.observed
  have hold : ∀ (n : ℕ) (job : Job), s.jobs[n]? = some job →
      (s.addJobs ready).jobs[n]? = some job := fun n job hj => by
    simp only [Run.addJobs]
    rw [List.getElem?_append_left (List.getElem?_eq_some_iff.mp hj).1, hj]
  have hrun : ∀ n, s.running n = true → (s.addJobs ready).running n = true := fun n hn => by
    rw [h.resting.acts n] at hn
    cases hn
  have hnew : ∀ job ∈ (s.addJobs ready).jobs, job ∈ s.jobs ∨
      ∃ t ∈ ready, job = { task := t } := by
    intro job hj
    rcases List.mem_append.mp hj with hj | hj
    · exact .inl hj
    · obtain ⟨t, ht, rfl⟩ := List.mem_map.mp hj
      exact .inr ⟨t, ht, rfl⟩
  have hunassembled := h.unassembled (by rw [hmain]; simp)
  refine ⟨does_of_main rfl rfl rfl rfl rfl fun _ _ hi => hi, ?_⟩
  refine
    { observed := ?_, free := h.resting.free, settled := h.resting.settled, complete := h.complete
      place := h.place, opened := h.opened, unanswered := h.unanswered
      unassembled := hunassembled, tasks := ?_, prior := fun n hn => ?_ }
  · refine ⟨{ hobs.queue with }, { hobs.story with }, ?_, ?_,
      closes_of_open { hobs.story with } h.opened⟩
    · refine
        { hobs.follows with
          owned := fun c hc => ?_, busy := fun k c hc hq => ?_ }
      · exact (hobs.follows.owned c hc).imp_right fun ⟨n, job, m, ht, hj, hs⟩ =>
          ⟨n, job, m, ht, hold n job hj, hs⟩
      · exact (hobs.follows.busy k c hc hq).imp_right fun ⟨n, ht, hn⟩ => ⟨n, ht, hrun n hn⟩
    · refine
        { ids := ?_, planned := fun he job hj => ?_, fresh := fun he us hu t ht hn => ?_
          assembled := fun c hc hs => absurd hs (hunassembled c hc), jobs := fun n job hj hout => ?_
          gathered := fun hne => absurd rfl hne, cancels := hobs.works.cancels }
      · have := hran.nodup hready
        rw [← h.jobs] at this
        simpa [Run.addJobs, Function.comp_def] using this
      · rcases hnew job hj with hj | ⟨t, ht, rfl⟩
        · exact hobs.works.planned he job hj
        · exact ⟨tasks, (h.place he).plan.trans hplan, hran.within.subset (hready.subset ht)⟩
      · exact hobs.works.fresh he us hu t ht fun n job hj hid => hn n job (hold n job hj) hid
      · have hlt : n < s.jobs.length := by
          by_contra hge
          have hj' : (s.jobs ++ ready.map fun t => ({ task := t } : Job))[n]? = some job := hj
          rw [List.getElem?_append_right (by omega)] at hj'
          obtain ⟨t, -, rfl⟩ := List.mem_map.mp (List.mem_of_getElem? hj')
          cases hout
        have hj' : (s.jobs ++ ready.map fun t => ({ task := t } : Job))[n]? = some job := hj
        rw [List.getElem?_append_left hlt] at hj'
        exact { hobs.works.jobs n job hj' hout with }
  · simp [Run.addJobs, h.jobs, Function.comp_def]
  · change (s.jobs ++ _)[n]? = _
    rw [h.jobs, List.getElem?_append_left hn]

/-- **One batch.** When it returns, the main flow stands where it stood, and the tasks of the
batch were run; when it raises, all jobs are over. -/
theorem Stands.wp_batch {Q : Except Exc Unit → Run → Prop} (h : Stands x a pl s)
    (hran : Ran tasks pending pl.jobs) (hplan : pl.plan = some tasks) (hmain : pl.main = .planned)
    (hready : ready.Sublist pending)
    (ok : ∀ jobs s', Ran tasks (pending.filter fun t => !ready.contains t) jobs →
      Stands x a { pl with jobs } s' → Q (.ok ()) s')
    (fail : ∀ e s', Fails x a s' → Q (.error e) s') :
    (batch ready).wp (eyes x a .main) Q s := by
  have hret := hran.returned
  obtain ⟨hdoes, hstart⟩ := h.addJobs hran hplan hmain hready
  unfold batch
  rw [Coro.wp_bind, Coro.wp_read, Coro.outcome_ok]
  simp only
  rw [h.jobs, Coro.wp_bind, Coro.wp_update]
  refine ⟨hdoes, ?_⟩
  rw [Coro.outcome_ok, Coro.wp_tryFinally]
  -- What follows the values or the error: the jobs left are cancelled, and all have to end.
  have hfinally : ∀ (r : Except Exc Unit) (s₁ : Run), Batching x a pl ready s₁ →
      (r = .ok () → ∀ job ∈ s₁.jobs, ∃ v, job.outcome = some (.ok v)) →
      Coro.wp (eyes x a .main) (do
        Coro.update (Run.cancelJobs (List.range' pl.jobs.length ready.length))
        join (List.range' pl.jobs.length ready.length))
        (Coro.outcome (fun _ => Q r) fun e => Q (.error e)) s₁ := by
    intro r s₁ h₁ hall
    obtain ⟨cancels, heq, hsub, hnodup, -⟩ :=
      cancelJobs_spreads (List.range' pl.jobs.length ready.length) s₁
    rw [Coro.wp_bind, Coro.wp_update, heq]
    refine ⟨does_of_main rfl rfl rfl rfl rfl fun _ _ hi => hsub hi, ?_⟩
    rw [Coro.outcome_ok]
    have h₁' : Batching x a pl ready { s₁ with cancels } :=
      h₁.congr rfl rfl rfl rfl rfl rfl (hnodup h₁.observed.works.cancels) fun _ _ hi => hsub hi
    refine h₁'.wp_join (fun n hn => h₁'.mem_batch hret hn) hret (fun s₂ h₂ hr hw hrun => ?_)
      fun s₂ h₂ hrun => fail _ s₂ (h₂.fails (h₂.idle hret hrun))
    rw [Coro.outcome_ok]
    cases r with
    | error e => exact fail e s₂ (h₂.fails (h₂.idle hret hrun))
    | ok _ =>
        have hreturned := hall rfl
        have hidle : ∀ n, s₁.running n = false := fun n => by
          unfold Ledger.running
          cases hj : s₁.jobs[n]? with
          | none => rfl
          | some job =>
              obtain ⟨v, hv⟩ := hreturned job (List.mem_of_getElem? hj)
              simp [hv]
        have hl : s₂.toLedger = s₁.toLedger := hr.idle hidle
        have hjobs : s₂.jobs = s₁.jobs := congrArg Ledger.jobs hl
        exact ok s₂.jobs s₂ (hran.batch hready h₂.tasks (by rw [hjobs]; exact hreturned))
          { resting := h₂.resting (h₂.idle hret hrun), complete := h₂.complete, awake := hw
            place := fun he => ⟨(h₂.place he).main, (h₂.place he).seen, (h₂.place he).plan⟩
            jobs := rfl, opened := h₂.opened, unanswered := h₂.unanswered
            unassembled := fun _ => h₂.unassembled }
  rw [Coro.wp_bind]
  refine hstart.wp_gather (fun n hn => hstart.mem_batch hret hn) hret
    (fun values s₁ h₁ hok hw hv => ?_)
    fun e s₁ h₁ => hfinally (.error e) s₁ h₁ fun he => by cases he
  obtain ⟨hres, hall⟩ := h₁.returned hok hret hv
  rw [Coro.outcome_ok, Coro.wp_update, setResults_eq hres]
  exact ⟨.refl a .main s₁, hfinally (.ok ()) s₁ h₁ fun _ => hall⟩

/-- **The batches.** By induction on the turns: every batch takes a task away. -/
theorem Stands.wp_runBatches {turns : ℕ} {Q : Except Exc Unit → Run → Prop}
    (h : Stands x a pl s) (hran : Ran tasks pending pl.jobs) (hplan : pl.plan = some tasks)
    (hmain : pl.main = .planned) (hturns : pending.length ≤ turns)
    (ok : ∀ jobs s', Ran tasks [] jobs → Stands x a { pl with jobs } s' → Q (.ok ()) s')
    (fail : ∀ e s', Fails x a s' → Q (.error e) s') :
    (runBatches turns pending hturns).wp (eyes x a .main) Q s := by
  induction turns generalizing pending pl s with
  | zero =>
      obtain rfl : pending = [] := List.length_eq_zero_iff.mp (by omega)
      exact ok pl.jobs s hran h
  | succ turns ih =>
      cases pending with
      | nil => exact ok pl.jobs s hran h
      | cons t₀ rest =>
          unfold runBatches
          rw [Coro.wp_bind, Coro.wp_read, Coro.outcome_ok]
          split
          · exact fail _ s h.fails
          · rename_i hne
            have hsub : (readyTasks (t₀ :: rest) s.results).Sublist (t₀ :: rest) :=
              List.filter_sublist
            rw [Coro.wp_bind]
            refine h.wp_batch hran hplan hmain hsub (fun jobs s' hran' h' => ?_) fail
            rw [Coro.outcome_ok]
            exact ih h' hran' hplan hmain _ ok

end HorizonRelay.Observed
