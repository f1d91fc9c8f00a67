import HorizonRelay.Observe.Turns

/-!
# A task between its calls

Between two model calls a task is away from the lock, its calls are over, and nobody
follows them.  Reporting an event leaves it so.

## Main definitions

* `Acts`, `Resting`, `Complete` — a task that acts, and one between its calls.
* `Went` — what the steps of a task leave as it was.

## Main results

* `Resting.wp_event` — a task between its calls reports an event.
-/

namespace HorizonRelay.Observed

open Py Coop

variable {x : Setup} {a : Premises} {i : Thread} {s s' s'' : Run}

/-- A task that acts: the main flow while no job runs, or the worker of a running job. -/
def Acts (x : Setup) : Thread → Run → Prop
  | .main, s => ∀ n, s.running n = false
  | .job n, s => s.running n = true ∧ ∃ job, s.jobs[n]? = some job ∧
      (x.emit = true → (s.progress.tasks job.task.id).isSome)
  | .follower _, _ => False

theorem not_follower_of_acts (hi : Acts x i s) (k : ℕ) : i ≠ .follower k := by
  rintro rfl
  cases hi

/-- What a task that acts leaves as it was: the jobs and results of the others. -/
structure Went (i : Thread) (s s' : Run) : Prop where
  main : i = .main → (∀ n, s.running n = false) → s'.jobs = s.jobs ∧ s'.results = s.results ∧
    s'.outcome = s.outcome ∧ s'.gathering = s.gathering
  job : ∀ n, i = .job n → s.running n = true → s'.jobs[n]? = s.jobs[n]? ∧
    ∀ job, s.jobs[n]? = some job → s'.results.get? job.task.id = s.results.get? job.task.id

theorem Went.refl (i : Thread) (s : Run) : Went i s s where
  main _ _ := ⟨rfl, rfl, rfl, rfl⟩
  job _ _ _ := ⟨rfl, fun _ _ => rfl⟩

theorem Went.trans (h : Went i s s') (h' : Went i s' s'') : Went i s s'' where
  main hi hidle := by
    obtain ⟨hj, hr, ho, hg⟩ := h.main hi hidle
    have hidle' : ∀ n, s'.running n = false := fun n => by
      exact (running_of_jobs (by rw [hj])).trans (hidle n)
    obtain ⟨hj', hr', ho', hg'⟩ := h'.main hi hidle'
    exact ⟨hj'.trans hj, hr'.trans hr, ho'.trans ho, hg'.trans hg⟩
  job n hi hn := by
    obtain ⟨hj, hr⟩ := h.job n hi hn
    obtain ⟨hj', hr'⟩ := h'.job n hi (by
      exact (running_of_jobs hj).trans hn)
    refine ⟨hj'.trans hj, fun job hjob => ?_⟩
    rw [hr' job (hj.trans hjob), hr job hjob]

/-- What the others do leaves a task's jobs and results alone. -/
theorem went_of_steady (h : Steady i s s') : Went i s s' where
  main hi hidle := by
    subst hi
    have hl : s'.toLedger = s.toLedger := MainRely.idle h.ledger hidle
    exact ⟨congrArg Ledger.jobs hl, congrArg Ledger.results hl, congrArg Ledger.outcome hl,
      h.gathering rfl⟩
  job n hi hn := by
    subst hi
    have hr := h.ledger.2 hn
    exact ⟨hr.job, hr.result⟩

/-- What a write leaves alone, when it touches neither jobs nor results. -/
theorem went_of_eq (hj : s'.jobs = s.jobs) (hr : s'.results = s.results)
    (ho : s'.outcome = s.outcome) (hg : s'.gathering = s.gathering) : Went i s s' where
  main _ _ := ⟨hj, hr, ho, hg⟩
  job n _ _ := ⟨by rw [hj], fun _ _ => by rw [hr]⟩

theorem sameCalls_of_steady (h : Steady i s s') (hi : Acts x i s) :
    SameCalls i s.toLedger s'.toLedger := by
  cases i with
  | main => exact MainRely.calls h.ledger
  | job n => exact h.ledger.1
  | follower k => cases hi

/-- The task goes on acting. -/
theorem acts_of_went (h : Acts x i s) (hw : Went i s s')
    (hstory : x.emit = true → ∀ n job, i = .job n → s.jobs[n]? = some job →
      (s.progress.tasks job.task.id).isSome → (s'.progress.tasks job.task.id).isSome) :
    Acts x i s' := by
  cases i with
  | main =>
      intro n
      exact (running_of_jobs (by rw [(hw.main rfl h).1])).trans (h n)
  | job n =>
      obtain ⟨hn, job, hj, hid⟩ := h
      have hjob := (hw.job n rfl hn).1
      exact ⟨(running_of_jobs hjob).trans hn,
        job, hjob.trans hj, fun he => hstory he n job rfl hj (hid he)⟩
  | follower k => cases h

/-- Tasks known before others tell something are known after. -/
theorem isSome_of_sameFor {p q : Progress} (h : SameFor i s p q) (hi : Acts x i s) {n : ℕ}
    {job : Job} (hn : i = .job n) (hj : s.jobs[n]? = some job)
    (hid : (p.tasks job.task.id).isSome) : (q.tasks job.task.id).isSome := by
  subst hn
  rw [(h hi.1 job hj hid).task]
  exact hid

/-- The report of a call is not forgotten while others tell something. -/
theorem finished_of_sameFor {p q : Progress} (h : SameFor i s p q) (hi : Acts x i s)
    (hp : ∀ n job, i = .job n → s.jobs[n]? = some job → (p.tasks job.task.id).isSome) {c : Call}
    (hc : s.Owns c) (ht : c.thread = i) : c.key ∈ q.finished ↔ c.key ∈ p.finished := by
  rcases hc with ⟨hm, hs⟩ | ⟨n, job, m, hn, hj, hs⟩
  · rw [hm] at ht
    subst ht
    exact h.finished c.key hs
  · rw [hn] at ht
    subst ht
    have hkey : c.key = ⟨.work job.task.id m, c.record.tier⟩ := by rw [Call.key, hs]
    rw [hkey]
    exact (h hi.1 job hj (hp n job rfl hj)).finished _ _

/-- A task whose calls are over, and followed no more. -/
structure Settled (x : Setup) (a : Premises) (i : Thread) (s : Run) : Prop where
  observed : Observed x a (some i) s
  acts : Acts x i s
  settled : ∀ (k : ℕ) (c : Call), s.calls[k]? = some c → c.thread = i →
    c.ended.isSome ∧ s.Quiet k
  calm : a.calm → ∀ c ∈ s.calls, c.thread = i → c.key ∈ s.progress.outputs →
    c.key ∈ s.progress.finished

/-- A task between its calls, away from the lock. -/
structure Resting (x : Setup) (a : Premises) (i : Thread) (s : Run) : Prop
    extends Settled x a i s where
  free : Free i s

/-- Every call of the task was reported as finished. -/
def Complete (x : Setup) (i : Thread) (s : Run) : Prop :=
  x.emit = true → ∀ c ∈ s.calls, c.thread = i → c.key ∈ s.progress.finished

/-- Without observers nothing is told. -/
theorem progress_silent (h : Observed x a (some i) s) (he : ¬ x.emit = true) : s.progress = {} := by
  unfold Run.progress told
  rw [h.story.silent (by simpa using he)]
  rfl

theorem some_of_acts (hi : Acts x i s) (he : x.emit = true) :
    ∀ n job, i = .job n → s.jobs[n]? = some job → (s.progress.tasks job.task.id).isSome := by
  rintro n job rfl hj
  obtain ⟨-, job', hj', hid⟩ := hi
  obtain rfl := Option.some.inj (hj.symm.trans hj')
  exact hid he

theorem parks_of_acts (hi : Acts x i s) (hs : Steady i s s') : Parks i s' := by
  cases i with
  | main =>
      have hl : s'.toLedger = s.toLedger := MainRely.idle hs.ledger hi
      intro n hn
      rw [hl, hi n] at hn
      cases hn
  | job n => trivial
  | follower k => trivial

/-- The calls of a task at rest stay at rest. -/
theorem Settled.of_steady (h : Settled x a i s) (hobs : Observed x a (some i) s')
    (hs : Steady i s s') {p : Progress} (hp : x.emit = true → SameFor i s p s'.progress)
    (hfin : ∀ key ∈ s.progress.finished, key ∈ p.finished)
    (hsome : x.emit = true → ∀ n job, i = .job n → s.jobs[n]? = some job →
      (p.tasks job.task.id).isSome) :
    Settled x a i s' ∧ (Complete x i s → Complete x i s') := by
  have hcalls := sameCalls_of_steady hs h.acts
  have hback : ∀ (k : ℕ) (c : Call), s'.calls[k]? = some c → c.thread = i →
      s.calls[k]? = some c := fun k c hc hi => (hcalls k c hi).mpr hc
  have hkeep : x.emit = true → ∀ c ∈ s'.calls, c.thread = i → c.key ∈ s.progress.finished →
      c.key ∈ s'.progress.finished := by
    intro he c hc hi hk
    obtain ⟨k, hk'⟩ := List.mem_iff_getElem?.mp hc
    have hmem := List.mem_of_getElem? (hback k c hk' hi)
    exact (finished_of_sameFor (hp he) h.acts (hsome he) (h.observed.follows.owned c hmem) hi).mpr
      (hfin _ hk)
  refine ⟨⟨hobs, ?_, fun k c hc hi => ?_, fun ha c hc hi hk => ?_⟩, fun hcomp he c hc hi => ?_⟩
  · exact acts_of_went h.acts (went_of_steady hs) fun he n job hn hj hid =>
      isSome_of_sameFor (hp he) h.acts hn hj (hsome he n job hn hj)
  · have hc' := hback k c hc hi
    obtain ⟨hend, hq⟩ := h.settled k c hc' hi
    exact ⟨hend, (hs.quiet hc' hi).mpr hq⟩
  · obtain ⟨k, hk'⟩ := List.mem_iff_getElem?.mp hc
    have hc' := hback k c hk' hi
    by_cases he : x.emit = true
    · exact hkeep he c hc hi (h.calm ha c (List.mem_of_getElem? hc') hi
        (hs.outputs k c hc' hi (h.settled k c hc' hi).2 hk))
    · rw [progress_silent hobs he] at hk
      cases hk
  · obtain ⟨k, hk'⟩ := List.mem_iff_getElem?.mp hc
    exact hkeep he c hc hi (hcomp he c (List.mem_of_getElem? (hback k c hk' hi)) hi)

/-- What an event of a task between its calls leaves. -/
structure Said (x : Setup) (a : Premises) (i : Thread) (p : Progress) (s s' : Run) : Prop where
  resting : Resting x a i s'
  complete : Complete x i s → Complete x i s'
  steady : Steady i s s'
  story : x.emit = true → SameFor i s p s'.progress

/-- **A task between its calls reports an event.** -/
theorem Resting.wp_event {d : EventData} {done : Bool} {Q : Except Exc Unit → Run → Prop}
    (h : Resting x a i s) (hflag : done = d.metrics?.isSome)
    (hplan : ∀ n, i = .job n → ∀ tasks t, d ≠ .planCreated tasks t)
    (ht : ∀ s', Settled x a i s' → (Complete x i s → Complete x i s') → Steady i s s' →
      SameFor i s s.progress s'.progress → (Awake i s → Awake i s') →
      x.emit = true → Tellable x a i d s')
    (hok : ∀ s', Said x a i (s.progress.after d) s s' → (Awake i s → Awake i s') →
      Q (.ok ()) s')
    (herror : ∀ s', x.emit = true → (Said x a i s.progress s s' ∧ a.Allows i .lock s' .cancel) ∨
      (Said x a i (s.progress.after d) s s' ∧
        ∀ m, d = .runCompleted m → i = .main → a.careful → ¬ Awake i s) →
      Q (.error cancelledError) s') :
    (event x i d done).wp (eyes x a i) Q s := by
  have hsomed : x.emit = true → ∀ n job, i = .job n → s.jobs[n]? = some job →
      ((s.progress.after d).tasks job.task.id).isSome := fun he n job hn hj =>
    Progress.isSome_after (some_of_acts h.acts he n job hn hj) (hplan n hn)
  have hfin : ∀ key ∈ s.progress.finished, key ∈ (s.progress.after d).finished :=
    fun key hk => Progress.mem_finished_after.mpr (.inl hk)
  have hsaid : ∀ s', Reported x a i d s s' → Said x a i (s.progress.after d) s s' := by
    intro s' hr
    obtain ⟨hset, hcomp⟩ := h.toSettled.of_steady hr.observed hr.steady hr.story hfin hsomed
    exact ⟨⟨hset, hr.free⟩, hcomp, hr.steady, hr.story⟩
  have hkeep : ∀ s', Observed x a (some i) s' → Steady i s s' →
      SameFor i s s.progress s'.progress →
      Settled x a i s' ∧ (Complete x i s → Complete x i s') := fun s' hobs hs hstory =>
    h.toSettled.of_steady hobs hs (fun _ => hstory) (fun _ hk => hk) (some_of_acts h.acts)
  refine Observed.wp_event h.observed h.free (fun k c hc hi _ _ => .inl (h.settled k c hc hi).2)
    hflag (fun k hk => by have := h.acts; rw [hk] at this; cases this)
    (some_of_acts h.acts) (fun s' hs _ => parks_of_acts h.acts hs) ?_
    (fun s' hr hw => hok s' (hsaid s' hr) (hw (.inr (not_follower_of_acts h.acts))))
    fun s' he hr => ?_
  · intro s' hobs hs hstory hw hheld he _
    obtain ⟨hset, hcomp⟩ := hkeep s' hobs hs hstory
    exact .inl (ht s' hset hcomp hs hstory hw he)
  · rcases hr with hr | ⟨hr, hcomplete⟩
    · obtain ⟨hset, hcomp⟩ := hkeep s' hr.observed hr.steady hr.story
      exact herror s' he
        (.inl ⟨⟨⟨hset, hr.free⟩, hcomp, hr.steady, fun _ => hr.story⟩, hr.allows⟩)
    · exact herror s' he (.inr ⟨hsaid s' hr, hcomplete⟩)

end HorizonRelay.Observed
