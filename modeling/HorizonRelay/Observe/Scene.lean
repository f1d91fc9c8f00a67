import HorizonRelay.Observe.Keys
import HorizonRelay.Observe.Log

/-!
# What a run looks like from outside

The invariant behind everything observers can tell about a run: events come in the order
the protocol expects, followers of calls stop in time, and nothing happens after the end.
Some of it is a matter of the environment, and holds under `Premises` only.

## Main definitions

* `Premises` — what is assumed of the environment, and which steps keep to it.
* `Observed` — the invariant, while at most one task is running.
* `Tellable` — what makes an event fit to be handed out.

## Main results

* `Observed.park` — a running task may suspend.
* `Observed.hand` — a fit event may be handed out.
-/

namespace HorizonRelay

open Py Coop

/-! ## Premises -/

/-- What is assumed of the environment of a run, beyond what it can do. -/
structure Premises : Type where
  /-- Nothing interrupts a run that has told its completion. -/
  careful : Prop := False
  /-- No worker with an accepted result is cancelled while it waits to announce it. -/
  unhurt : Prop := False
  /-- No task is cancelled between the output of one of its calls and the report of its end. -/
  calm : Prop := False
  /-- The callback lets the cancellation of a follower through. -/
  heeded : Prop := False

/-- The moves that interrupt a run. -/
def Move.Interrupts : Move → Prop
  | .deadline | .cancelRun => True
  | _ => False

/-- The answers considered. -/
structure Premises.Allows (a : Premises) (i : Thread) (op : Op) (s : Run) (m : Choice) :
    Prop where
  unhurt : a.unhurt → m = .cancel → op = .lock → ∀ (n : ℕ) (job : Job), i = .job n →
    s.jobs[n]? = some job → job.task.id ∉ s.results.keys
  calm : a.calm → m = .cancel → ∀ c ∈ s.calls, c.thread = i → c.key ∈ s.progress.outputs →
    c.key ∈ s.progress.finished
  heeded : a.heeded → ∀ e, op = .emit e → ∀ k, i = .follower k → i ∈ s.cancels → m = .cancel

/-- The steps considered. -/
structure Premises.Admits (a : Premises) (c : State) (l : Label Thread Choice Move) : Prop where
  resume : ∀ i m op cont, l = .resume i m → c.pool i = .await op cont → a.Allows i op c.shared m
  move : a.careful → ∀ v, l = .move v → v.Interrupts → c.shared.progress.main ≠ .completed

/-! ## The invariant -/

/-- Nobody follows call `k`, or its follower was told to stop. -/
def Run.Quiet (s : Run) (k : ℕ) : Prop := (s.live k).watched = true → (s.live k).stopped = true

/-- The metrics of the records, at some time. -/
def Run.metricsAt (x : Setup) (s : Run) (ms : ℤ) : Metrics := { s.metrics x with elapsedMs := ms }

theorem metricsAt_congr {x : Setup} {s s' : Run} (h : s'.toLedger = s.toLedger) (ms : ℤ) :
    s'.metricsAt x ms = s.metricsAt x ms := by
  unfold Run.metricsAt Run.metrics
  simp only [h]

/-- The place of a call is one of its task's. -/
def Run.Owns (s : Run) (c : Call) : Prop :=
  (c.thread = .main ∧ c.slot.isMain = true) ∨ ∃ n job m, c.thread = .job n ∧
    s.jobs[n]? = some job ∧ c.slot = .work job.task.id m

/-- The events a task reports. A follower that was told to stop can only repeat itself. -/
def Run.Tells (s : Run) : Thread → EventData → Prop
  | .main, d => d.teller = .main
  | .job n, d => ∃ job, s.jobs[n]? = some job ∧ d.teller = .task job.task.id
  | .follower k, d => ∃ c, s.calls[k]? = some c ∧ c.thread ≠ .follower k ∧
      d.teller = .output c.key ∧ (¬ s.Quiet k ∨ c.key ∈ s.progress.outputs)

variable (x : Setup) (a : Premises)

/-- What the run has told about a job that is over. -/
structure JobTold (n : ℕ) (job : Job) (s : Run) : Prop where
  ended : ∀ c ∈ s.calls, c.thread = .job n → c.ended.isSome
  told : ∀ v, job.outcome = some (.ok v) → x.emit = true →
    (∃ t, s.progress.tasks job.task.id = some (.done t)) ∧
    ∀ c ∈ s.calls, c.thread = .job n → c.key ∈ s.progress.finished
  unhurt : a.unhurt → x.emit = true → job.task.id ∈ s.results.keys →
    ∃ t, s.progress.tasks job.task.id = some (.done t)
  calm : a.calm → ∀ c ∈ s.calls, c.thread = .job n → c.key ∈ s.progress.outputs →
    c.key ∈ s.progress.finished

/-- No call is requested after an event that ends the run was handed out. -/
def NoneAfter (log : List Entry) : Prop :=
  ∀ before e after, log = before ++ .handed e :: after → e.data.metrics?.isSome →
    requested after = []

theorem NoneAfter.of_open {log : List Entry}
    (h : ∀ e ∈ handed log, e.data.metrics? = none) : NoneAfter log := by
  rintro before e after rfl hm
  have := h e (by simp [handed, List.filterMap_append, Entry.event?])
  simp [this] at hm

theorem NoneAfter.concat {log : List Entry} {entry : Entry} (h : NoneAfter log)
    (hentry : entry.call? = none) : NoneAfter (log ++ [entry]) := by
  intro before e after heq hm
  rcases List.eq_nil_or_concat after with rfl | ⟨after, last, rfl⟩
  · rfl
  · have heq' : log ++ [entry] = (before ++ .handed e :: after) ++ [last] := by simpa using heq
    obtain ⟨rfl, hlast⟩ := List.append_inj' heq' rfl
    obtain rfl := List.singleton_inj.mp hlast
    have := h before e after rfl hm
    unfold requested at this ⊢
    simp [List.filterMap_append, this, hentry]

theorem NoneAfter.muted {log log' : List Entry} (h : NoneAfter log) (hm : Muted log log') :
    NoneAfter log' := by
  obtain ⟨more, rfl, hmore⟩ := hm
  induction more using List.reverseRecOn with
  | nil => simpa using h
  | append_singleton more entry ih =>
      rw [← List.append_assoc]
      exact (ih fun e he => hmore e (by simp [he])).concat (hmore entry (by simp)).2

/-- What holds once the end was told. -/
structure Over (s : Run) : Prop where
  idle : ∀ n, s.running n = false
  ended : ∀ c ∈ s.calls, c.ended.isSome
  quiet : ∀ k, s.Quiet k
  calm : a.calm → ∀ key ∈ s.progress.outputs, key ∈ s.progress.finished
  told : s.progress.main = .completed → ∀ c ∈ s.calls, c.key ∈ s.progress.finished

/-- What holds of the events and the records. -/
structure Story (s : Run) : Prop where
  silent : x.emit = false → handed s.log = []
  accepts : Progress.Accepts (¬ a.heeded) (told s.log)
  finished : ∀ key ∈ s.progress.finished, ∃ c ∈ s.calls, c.key = key ∧ c.ended.isSome
  outputs : ∀ key ∈ s.progress.outputs, ∃ c ∈ s.calls, c.key = key
  done : ∀ id t, s.progress.tasks id = some (.done t) → id ∈ s.results.keys
  requests : requested s.log = List.range s.calls.length
  recorded : ∀ c ∈ s.calls, c.ended.isSome → c.record.outcome ≠ .started
  flags : ∀ e ∈ handed s.log, e.done = e.data.metrics?.isSome

/-- What holds of the followers, while task `who` is running. -/
structure Follows (who : Option Thread) (s : Run) : Prop where
  lives : s.lives.length = s.calls.length
  owned : ∀ c ∈ s.calls, s.Owns c
  watched : ∀ k, (s.live k).watched = true → x.emit = true
  busy : ∀ (k : ℕ) (c : Call), s.calls[k]? = some c → ¬ s.Quiet k →
    c.thread = .main ∨ ∃ n, c.thread = .job n ∧ s.running n = true
  /-- A call that is followed is in progress. -/
  link : ∀ (k : ℕ) (c : Call), s.calls[k]? = some c → ¬ s.Quiet k →
    c.key ∉ s.progress.finished → s.progress.Calling c.key
  /-- A call whose end was told is not followed once its task has left the lock. -/
  still : ∀ (k : ℕ) (c : Call), s.calls[k]? = some c → who ≠ some c.thread →
    c.key ∈ s.progress.finished → c.ended.isSome →
    s.Quiet k ∨ s.eventLock.holder = some c.thread

/-- What holds of the jobs, while task `who` is running. -/
structure Works (who : Option Thread) (s : Run) : Prop where
  ids : (s.jobs.map fun job => job.task.id).Nodup
  planned : x.emit = true → ∀ job ∈ s.jobs,
    ∃ tasks, s.progress.plan = some tasks ∧ job.task ∈ tasks
  /-- A task whose job has reported nothing is where the plan put it. -/
  fresh : x.emit = true → ∀ tasks, s.progress.plan = some tasks → ∀ t ∈ tasks,
    (∀ (n : ℕ) (job : Job), s.jobs[n]? = some job → job.task.id = t.id → s.number (.job n) = 0) →
    s.progress.tasks t.id = some (.next t.preferredTier 1)
  /-- The answer is put together only once every job has returned. -/
  assembled : ∀ c ∈ s.calls, c.slot = .synthesize →
    ∀ job ∈ s.jobs, ∃ v, job.outcome = some (.ok v)
  jobs : ∀ (n : ℕ) (job : Job), s.jobs[n]? = some job → job.outcome.isSome →
    JobTold x a n job s
  gathered : who ≠ some .main → ∀ n, s.running n = true →
    ∃ js, s.gathering = some js ∧ n ∈ js
  cancels : s.cancels.Nodup

/-- What holds about the end of a run. -/
structure Closes (s : Run) : Prop where
  atEnd : s.progress.Ended → Over a s
  last : NoneAfter s.log
  metrics : ∀ e ∈ handed s.log, ∀ m, e.data.metrics? = some m →
    m = s.metricsAt x m.elapsedMs
  /-- A run that told its completion tells nothing else. -/
  completes : a.careful → s.progress.main = .stopped → ∀ e ∈ handed s.log,
    ∀ m, e.data ≠ .runCompleted m
  returns : a.careful → s.progress.main = .completed → ∀ e, s.outcome ≠ some (.error e)

/-- **What holds of a run**, while task `who`, or nobody, is running. -/
structure Observed (who : Option Thread) (s : Run) : Prop where
  queue : Queue s
  story : Story x a s
  follows : Follows x who s
  works : Works x a who s
  closes : Closes x a s

/-! ## Progress and the log -/

section Progress
variable {s s' : Run}

theorem progress_congr (h : handed s'.log = handed s.log) : s'.progress = s.progress := by
  unfold Run.progress told
  rw [h]

@[simp] theorem progress_see_handed (s : Run) (e : RelayEvent) :
    (s.see (.handed e)).progress = s.progress.after e.data := by
  unfold Run.progress told Run.see
  rw [handed_concat_handed, List.map_append, List.map_singleton, Progress.of_concat]

@[simp] theorem progress_see_emitted (s : Run) (n : ℕ) :
    (s.see (.emitted n)).progress = s.progress := progress_congr (handed_concat_emitted _ _)

end Progress

/-! ## States that look the same -/

section Same
variable {x a} {who : Option Thread} {s s' : Run} {i : Thread}

/-- The followers are the same, whatever the calls have written. -/
structure SameLives (s s' : Run) : Prop where
  length : s'.lives.length = s.lives.length
  watched : ∀ k, (s'.live k).watched = (s.live k).watched
  stopped : ∀ k, (s'.live k).stopped = (s.live k).stopped

theorem sameLives_of_eq (h : s'.lives = s.lives) : SameLives s s' where
  length := congrArg List.length h
  watched k := by
    unfold Run.live
    rw [h]
  stopped k := by
    unfold Run.live
    rw [h]

/-- What the invariant does not depend on may change: budgets, routes, plans, timers. -/
structure SameScene (s s' : Run) : Prop where
  log : Muted s.log s'.log
  calls : s'.calls = s.calls
  lives : SameLives s s'
  jobs : s'.jobs = s.jobs

theorem SameScene.quiet (h : SameScene s s') (k : ℕ) : s'.Quiet k ↔ s.Quiet k := by
  unfold Run.Quiet
  rw [h.lives.watched, h.lives.stopped]

theorem SameScene.handed (h : SameScene s s') : handed s'.log = handed s.log := h.log.handed

theorem SameScene.progress (h : SameScene s s') : s'.progress = s.progress :=
  progress_congr h.handed

theorem SameScene.running (h : SameScene s s') (n : ℕ) : s'.running n = s.running n :=
  running_of_jobs (by rw [h.jobs])

theorem Follows.congr (h : Follows x who s) (hs : SameScene s s')
    (hlock : ∀ j, who ≠ some j → s.eventLock.holder = some j → s'.eventLock.holder = some j) :
    Follows x who s' where
  lives := by rw [hs.lives.length, hs.calls]; exact h.lives
  owned := by
    unfold Run.Owns
    rw [hs.calls, hs.jobs]
    exact h.owned
  watched k := by
    rw [hs.lives.watched]
    exact h.watched k
  busy k c hc hq := by
    simp only [hs.calls, hs.quiet, hs.running] at hc hq ⊢
    exact h.busy k c hc hq
  link k c hc hq hf := by
    rw [hs.calls] at hc
    rw [hs.quiet] at hq
    rw [hs.progress] at hf ⊢
    exact h.link k c hc hq hf
  still k c hc hwho hf hend := by
    rw [hs.calls] at hc
    rw [hs.progress] at hf
    rw [hs.quiet]
    exact (h.still k c hc hwho hf hend).imp_right (hlock _ hwho)

theorem Story.congr (h : Story x a s) (hs : SameScene s s')
    (hresults : s.results.keys ⊆ s'.results.keys) : Story x a s' where
  silent := by rw [hs.handed]; exact h.silent
  accepts := by
    unfold told
    rw [hs.handed]
    exact h.accepts
  finished := by rw [hs.progress, hs.calls]; exact h.finished
  outputs := by rw [hs.progress, hs.calls]; exact h.outputs
  done := by
    rw [hs.progress]
    exact fun id t ht => hresults (h.done id t ht)
  requests := by rw [hs.log.requested, hs.calls]; exact h.requests
  recorded := by rw [hs.calls]; exact h.recorded
  flags := by rw [hs.handed]; exact h.flags

theorem JobTold.congr {n : ℕ} {job : Job} (h : JobTold x a n job s) (hs : SameScene s s')
    (hresults : a.unhurt → x.emit = true → job.task.id ∈ s'.results.keys →
      job.task.id ∈ s.results.keys ∨ ∃ t, s.progress.tasks job.task.id = some (.done t)) :
    JobTold x a n job s' where
  ended := by rw [hs.calls]; exact h.ended
  told := by rw [hs.progress, hs.calls]; exact h.told
  unhurt ha he hk := by
    rw [hs.progress]
    exact (hresults ha he hk).elim (h.unhurt ha he) id
  calm := by rw [hs.progress, hs.calls]; exact h.calm

theorem Over.congr (h : Over a s) (hs : SameScene s s') : Over a s' where
  idle n := by rw [hs.running]; exact h.idle n
  ended := by rw [hs.calls]; exact h.ended
  quiet k := (hs.quiet k).mpr (h.quiet k)
  calm := by rw [hs.progress]; exact h.calm
  told := by rw [hs.progress, hs.calls]; exact h.told

/-- The lock, the queue of cancellations, what calls have written and the like may change. -/
theorem Observed.congr_lives (h : Observed x a who s) (hledger : s'.toLedger = s.toLedger)
    (hlog : Muted s.log s'.log) (hlives : SameLives s s')
    (hgath : who ≠ some .main → s'.gathering = s.gathering) (hqueue : Queue s')
    (hlock : ∀ j, who ≠ some j → s.eventLock.holder = some j → s'.eventLock.holder = some j)
    (hcancels : s'.cancels.Nodup) (hnumber : ∀ i, s'.number i = 0 → s.number i = 0) :
    Observed x a who s' := by
  have hsame : SameScene s s' :=
    ⟨hlog, congrArg Ledger.calls hledger, hlives, congrArg Ledger.jobs hledger⟩
  have hresults : s'.results = s.results := congrArg Ledger.results hledger
  have hout : s'.outcome = s.outcome := congrArg Ledger.outcome hledger
  refine ⟨hqueue, h.story.congr hsame (hresults ▸ List.Subset.refl _), h.follows.congr hsame hlock,
    ?_, ?_⟩
  · refine
      { ids := by rw [hsame.jobs]; exact h.works.ids
        jobs := fun n job hj hout => ?_
        planned := by rw [hsame.jobs, hsame.progress]; exact h.works.planned
        fresh := fun he tasks hp t ht hn => ?_
        assembled := by rw [hsame.calls, hsame.jobs]; exact h.works.assembled
        gathered := fun hwho n hn => ?_, cancels := hcancels }
    · rw [hsame.progress] at hp ⊢
      rw [hsame.jobs] at hn
      exact h.works.fresh he tasks hp t ht fun n job hj hid => hnumber _ (hn n job hj hid)
    · rw [hsame.jobs] at hj
      exact (h.works.jobs n job hj hout).congr hsame fun _ _ hk => .inl (hresults ▸ hk)
    · rw [hsame.running] at hn
      rw [hgath hwho]
      exact h.works.gathered hwho n hn
  · refine ⟨fun hend => ?_, h.closes.last.muted hlog, fun e he m hm => ?_,
      fun ha hstop e he => ?_, fun ha hc e he => ?_⟩
    · rw [hsame.progress] at hend
      exact (h.closes.atEnd hend).congr hsame
    · rw [hsame.handed] at he
      rw [metricsAt_congr hledger]
      exact h.closes.metrics e he m hm
    · rw [hsame.progress] at hstop
      rw [hsame.handed] at he
      exact h.closes.completes ha hstop e he
    · rw [hsame.progress] at hc
      rw [hout] at he
      exact h.closes.returns ha hc e he

theorem Observed.congr (h : Observed x a who s) (hledger : s'.toLedger = s.toLedger)
    (hlog : Muted s.log s'.log) (hlives : s'.lives = s.lives)
    (hgath : who ≠ some .main → s'.gathering = s.gathering) (hqueue : Queue s')
    (hlock : ∀ j, who ≠ some j → s.eventLock.holder = some j → s'.eventLock.holder = some j)
    (hcancels : s'.cancels.Nodup) (hnumber : ∀ i, s'.number i = 0 → s.number i = 0) :
    Observed x a who s' :=
  h.congr_lives hledger hlog (sameLives_of_eq hlives) hgath hqueue hlock hcancels hnumber

end Same

/-! ## Handing out an event -/

/-- What makes an expected event fit to be handed out by task `i`. -/
structure Tellable (x : Setup) (a : Premises) (i : Thread) (d : EventData) (s : Run) : Prop where
  expects : s.progress.Expects d
  tells : s.Tells i d
  done : ∀ id t n j r, d = .taskCompleted id t n j r → id ∈ s.results.keys
  finished : ∀ r, d = .callFinished r → ∃ c ∈ s.calls, c.key = r.key ∧ c.ended.isSome
  /-- The calls of the task that are still followed are reported as finished. -/
  link : ∀ (k : ℕ) (c : Call), s.calls[k]? = some c → c.thread = i → ¬ s.Quiet k →
    c.key ∈ (s.progress.after d).finished
  atEnd : ∀ m, d.metrics? = some m → Over a s ∧ m = s.metricsAt x m.elapsedMs
    ∧ s.outcome = none
  told : ∀ m, d = .runCompleted m → ∀ c ∈ s.calls, c.key ∈ s.progress.finished
  completes : a.careful → (∀ m, d ≠ .runCompleted m) → d.metrics?.isSome →
    s.progress.main ≠ .completed

/-- What makes an event fit to be handed out: it is expected, or an output that comes late. -/
def Fit (x : Setup) (a : Premises) (i : Thread) (d : EventData) (s : Run) : Prop :=
  Tellable x a i d s ∨ ¬ a.heeded ∧ s.progress.Late d ∧ s.Tells i d

section Hand
variable {x : Setup} {a : Premises} {who : Option Thread} {s : Run} {i : Thread} {e : RelayEvent}

theorem Fit.admits {d : EventData} (h : Fit x a i d s) : s.progress.Admits (¬ a.heeded) d :=
  h.imp Tellable.expects fun h => ⟨h.1, h.2.1⟩

theorem Fit.tells {d : EventData} (h : Fit x a i d s) : s.Tells i d :=
  h.elim Tellable.tells fun h => h.2.2

/-- Events leave everything but the log alone. -/
@[simp] theorem quiet_see (entry : Entry) (k : ℕ) : (s.see entry).Quiet k ↔ s.Quiet k := Iff.rfl

/-- The outputs told after an event were told before, or the event is one of a call that is
followed. -/
theorem Run.Tells.outputs {d : EventData} (h : s.Tells i d) {key : Key}
    (hk : key ∈ (s.progress.after d).outputs) : key ∈ s.progress.outputs ∨
      ∃ k c, i = .follower k ∧ s.calls[k]? = some c ∧ c.thread ≠ i ∧ c.key = key ∧
        ¬ s.Quiet k := by
  rcases Progress.mem_outputs_after.mp hk with hk | ⟨r, o, n, rfl, rfl⟩
  · exact .inl hk
  · cases i with
    | main => cases h
    | job n =>
        obtain ⟨job, -, ht⟩ := h
        cases ht
    | follower k =>
        obtain ⟨c, hc, hne, ht, hq⟩ := h
        have hkey : c.key = r.key := (Teller.output.inj ht).symm
        exact hq.symm.imp (fun hq => hkey ▸ hq) fun hq => ⟨k, c, rfl, hc, hne, hkey, hq⟩

theorem Story.hand (h : Story x a s) (hemit : x.emit = true) (ht : Tellable x a i e.data s)
    (hflag : e.done = e.data.metrics?.isSome) : Story x a (s.see (.handed e)) where
  silent he := by simp [he] at hemit
  accepts := by
    rw [Run.see, told, handed_concat_handed, List.map_append, List.map_singleton]
    exact .concat h.accepts (.inl ht.expects)
  finished key hk := by
    rw [progress_see_handed, Progress.mem_finished_after] at hk
    rcases hk with hk | ⟨r, hd, rfl⟩
    · exact h.finished key hk
    · exact ht.finished r hd
  outputs key hk := by
    rw [progress_see_handed] at hk
    rcases ht.tells.outputs hk with hk | ⟨k, c, -, hc, -, rfl, -⟩
    · exact h.outputs key hk
    · exact ⟨c, List.mem_of_getElem? hc, rfl⟩
  done id t hd := by
    rw [progress_see_handed] at hd
    rcases Progress.done_after hd with hd | ⟨tier, n, j, r, hd⟩
    · exact h.done id t hd
    · exact ht.done id _ _ _ _ hd
  requests := by
    have hsame : requested (s.see (.handed e)).log = requested s.log := by
      simp [requested, Run.see, List.filterMap_append, Entry.call?]
    rw [hsame]
    exact h.requests
  recorded := h.recorded
  flags e' he' := by
    rw [Run.see, handed_concat_handed, List.mem_append, List.mem_singleton] at he'
    rcases he' with he' | rfl
    · exact h.flags e' he'
    · exact hflag

/-- Who tells the events about a call's slot is the task that made the call. -/
theorem thread_of_tells {c : Call} {d : EventData} (hown : s.Owns c)
    (hids : (s.jobs.map fun job => job.task.id).Nodup) (ht : s.Tells i d)
    (hslot : c.slot.isMain = true ∧ d.teller = .main ∨
      ∃ id m, c.slot = .work id m ∧ d.teller = .task id) : c.thread = i := by
  cases i with
  | main =>
      rcases hown with ⟨hthread, -⟩ | ⟨n, job, m, -, -, hs⟩
      · exact hthread
      · rcases hslot with ⟨hmain, -⟩ | ⟨id, m', -, hd⟩
        · rw [hs] at hmain
          cases hmain
        · cases (show d.teller = .main from ht).symm.trans hd
  | job n =>
      obtain ⟨job, hj, ht⟩ := ht
      rcases hslot with ⟨-, hd⟩ | ⟨id, m, hs, hd⟩
      · cases ht.symm.trans hd
      · cases ht.symm.trans hd
        rcases hown with ⟨-, hmain⟩ | ⟨n', job', m', hthread, hj', hs'⟩
        · rw [hs] at hmain
          cases hmain
        · rw [hs, Slot.work.injEq] at hs'
          rw [hthread, eq_of_task_id (l := s.toLedger) hids hj' hj hs'.1.symm]
  | follower k =>
      obtain ⟨c', -, -, ht, -⟩ := ht
      rcases hslot with ⟨-, hd⟩ | ⟨id, m, -, hd⟩ <;> cases ht.symm.trans hd

theorem Follows.hand (h : Follows x (some i) s) (hids : (s.jobs.map fun job => job.task.id).Nodup)
    (hp : s.progress.Planned) (ht : Tellable x a i e.data s)
    (hheld : s.eventLock.holder = some i) : Follows x none (s.see (.handed e)) where
  lives := h.lives
  owned := h.owned
  watched := h.watched
  busy := h.busy
  link k c hc hq hf := by
    rw [progress_see_handed] at hf ⊢
    by_cases hi : c.thread = i
    · exact absurd (ht.link k c hc hi hq) hf
    · have hnot : c.key ∉ s.progress.finished := fun hk =>
        hf (Progress.mem_finished_after.mpr (.inl hk))
      have hown := h.owned c (List.mem_of_getElem? hc)
      refine (h.link k c hc hq hnot).after hp (.inl ht.expects : s.progress.Admits False _) ?_ ?_
      · exact fun hmain hteller =>
          hi (thread_of_tells hown hids ht.tells (.inl ⟨hmain, hteller⟩))
      · exact fun id m hslot hteller =>
          hi (thread_of_tells hown hids ht.tells (.inr ⟨id, m, hslot, hteller⟩))
  still k c hc _ hf hend := by
    rw [progress_see_handed, Progress.mem_finished_after] at hf
    by_cases hi : c.thread = i
    · exact .inr (hi ▸ hheld)
    · rcases hf with hf | ⟨r, hd, hr⟩
      · exact h.still k c hc (fun heq => hi (Option.some.inj heq).symm) hf hend
      · -- the report of another task's call is not this task's to hand out
        have hslot : r.slot = c.slot := congrArg Key.slot hr
        have hown := h.owned c (List.mem_of_getElem? hc)
        refine absurd (thread_of_tells hown hids ht.tells ?_) hi
        rw [hd, EventData.teller, hslot]
        cases c.slot <;> simp [Slot.isMain]

theorem JobTold.hand {n : ℕ} {job : Job} (h : JobTold x a n job s) (hf : Follows x (some i) s)
    (hjob : s.jobs[n]? = some job) (hout : job.outcome.isSome) (hp : s.progress.Planned)
    (hok : ∀ k, i = .follower k → s.toLedger.Ok x anyEnd) (ht : Tellable x a i e.data s) :
    JobTold x a n job (s.see (.handed e)) := by
  have hdone : ∀ id, (∃ t, s.progress.tasks id = some (.done t)) →
      ∃ t, (s.progress.after e.data).tasks id = some (.done t) :=
    fun id ⟨t, hid⟩ => ⟨t, hp.done (.inl ht.expects : s.progress.Admits False _) hid⟩
  refine ⟨h.ended, fun v hv he => ?_, fun ha he hk => ?_, fun ha c hc hthread hkey => ?_⟩
  · rw [progress_see_handed]
    obtain ⟨hd, htold⟩ := h.told v hv he
    exact ⟨hdone _ hd, fun c hc hthread =>
      Progress.mem_finished_after.mpr (.inl (htold c hc hthread))⟩
  · rw [progress_see_handed]
    exact hdone _ (h.unhurt ha he hk)
  · rw [progress_see_handed] at hkey ⊢
    rcases ht.tells.outputs hkey with hkey | ⟨k, c', rfl, hc', -, hkey', hq⟩
    · exact Progress.mem_finished_after.mpr (.inl (h.calm ha c hc hthread hkey))
    · -- the call is over, so nobody follows it
      exfalso
      obtain ⟨j, hj⟩ := List.mem_iff_getElem?.mp hc
      obtain rfl := (hok k rfl).eq_of_slot hc' hj (congrArg Key.slot hkey')
      obtain rfl := Option.some.inj (hc'.symm.trans hj)
      rcases hf.busy k c' hc' hq with hmain | ⟨m, hm, hrun⟩
      · rw [hmain] at hthread
        cases hthread
      · rw [hthread] at hm
        cases hm
        simp [Ledger.running, hjob, Option.isSome_iff_ne_none.mp hout] at hrun

theorem Closes.hand (h : Closes x a s) (hs : Story x a s) (ht : Tellable x a i e.data s) :
    Closes x a (s.see (.handed e)) := by
  have hmem : ∀ e' ∈ handed (s.see (.handed e)).log, e' ∈ handed s.log ∨ e' = e := by
    intro e' he'
    rwa [Run.see, handed_concat_handed, List.mem_append, List.mem_singleton] at he'
  refine ⟨fun hend => ?_, h.last.concat rfl, fun e' he' m hm => ?_,
    fun ha hstop e' he' m hm => ?_, fun ha hcomp err herr => ?_⟩
  · rw [progress_see_handed] at hend
    cases hd : e.data.metrics? with
    | none =>
        exfalso
        rcases Progress.ended_after hend with hend | hsome
        · rcases hend with hmain | hmain
          · obtain ⟨m, hm | hm⟩ := ht.expects.2.1 hmain <;> simp [hm, EventData.metrics?] at hd
          · exact ht.expects.1 hmain
        · simp [hd] at hsome
    | some m =>
        obtain ⟨hover, -, -⟩ := ht.atEnd m hd
        refine ⟨hover.idle, hover.ended, hover.quiet, fun ha key hk => ?_, fun hmain c hc => ?_⟩
        · rw [progress_see_handed] at hk ⊢
          rw [Progress.mem_outputs_after] at hk
          rcases hk with hk | ⟨r, o, n, hr, -⟩
          · exact Progress.mem_finished_after.mpr (.inl (hover.calm ha key hk))
          · simp [hr, EventData.metrics?] at hd
        · rw [progress_see_handed] at hmain ⊢
          refine Progress.mem_finished_after.mpr (.inl ?_)
          cases hdata : e.data with
          | runCompleted m' => exact ht.told m' hdata c hc
          | runFailed | runCancelled =>
              rw [hdata] at hmain
              cases hmain
          | _ => simp [hdata, EventData.metrics?] at hd
  · rcases hmem e' he' with he' | rfl
    · exact h.metrics e' he' m hm
    · exact (ht.atEnd m hm).2.1
  · rw [progress_see_handed] at hstop
    rcases hmem e' he' with he' | rfl
    · have hended : s.progress.Ended :=
        hs.accepts.ended (d := e'.data) (List.mem_map_of_mem he') (by rw [hm]; rfl)
      have hmain : s.progress.main = .completed := hended.resolve_right ht.expects.1
      obtain ⟨m', hd⟩ := ht.expects.2.1 hmain
      refine ht.completes ha (fun m => ?_) ?_ hmain <;>
        rcases hd with hd | hd <;> simp [hd, EventData.metrics?]
    · rw [hm] at hstop
      cases hstop
  · rw [progress_see_handed] at hcomp
    cases hd : e.data.metrics? with
    | some m =>
        obtain ⟨-, -, hout⟩ := ht.atEnd m hd
        exact absurd (hout.symm.trans herr) (by simp)
    | none =>
        rcases Progress.ended_after (.inl hcomp) with hend | hsome
        · rcases hend with hmain | hmain
          · obtain ⟨m, hm | hm⟩ := ht.expects.2.1 hmain <;> simp [hm, EventData.metrics?] at hd
          · exact ht.expects.1 hmain
        · simp [hd] at hsome

/-- A plan is told when no job exists. -/
theorem Works.plan_ne (h : Works x a who s) (hp : s.progress.Planned) (hemit : x.emit = true)
    {job : Job} (hj : job ∈ s.jobs) {d : EventData} (he : s.progress.Expects d) (tasks : List Task)
    (t : Str) : d ≠ .planCreated tasks t := by
  rintro rfl
  obtain ⟨tasks', hplan, -⟩ := h.planned hemit job hj
  obtain ⟨⟨k, hk⟩, -⟩ := he.allows
  have := hp.main (by rw [hplan]; rfl)
  simp [hk] at this

theorem Works.hand (h : Works x a who s) (hf : Follows x (some i) s) (hp : s.progress.Planned)
    (hemit : x.emit = true) (hnumber : s.number i ≠ 0)
    (hok : ∀ k, i = .follower k → s.toLedger.Ok x anyEnd) (ht : Tellable x a i e.data s) :
    Works x a who (s.see (.handed e)) where
  ids := h.ids
  planned he job hj := by
    rw [progress_see_handed, Progress.plan_after (h.plan_ne hp hemit hj ht.expects)]
    exact h.planned he job hj
  fresh he tasks hplan t hmem hn := by
    rw [progress_see_handed] at hplan ⊢
    by_cases hd : ∃ tasks' u, e.data = .planCreated tasks' u
    · obtain ⟨tasks', u, hd⟩ := hd
      rw [hd] at hplan ⊢
      obtain rfl : tasks' = tasks := Option.some.inj hplan
      have hfit : PlanFit tasks' := by
        have := ht.expects.allows
        rw [hd] at this
        exact this.2
      exact Progress.startPhases_eq hfit.ids hmem
    · have hd : ∀ tasks' u, e.data ≠ .planCreated tasks' u := fun tasks' u h => hd ⟨tasks', u, h⟩
      rw [Progress.plan_after hd] at hplan
      rw [Progress.tasks_after_of_ne ?_ hd]
      · exact h.fresh he tasks hplan t hmem hn
      · -- only the job of the task reports about it
        intro hteller
        have htells := ht.tells
        cases i with
        | main =>
            rw [show e.data.teller = _ from htells] at hteller
            cases hteller
        | job n =>
            obtain ⟨job, hj, htells⟩ := htells
            rw [hteller] at htells
            exact hnumber (hn n job hj (Teller.task.inj htells).symm)
        | follower k =>
            obtain ⟨c, -, -, htells, -⟩ := htells
            rw [hteller] at htells
            cases htells
  assembled := h.assembled
  jobs n job hj hout := (h.jobs n job hj hout).hand hf hj hout hp hok ht
  gathered := h.gathered
  cancels := h.cancels

/-! ## Suspending -/

/-- What the task that is running must see to before it suspends. -/
def Parks : Thread → Run → Prop
  | .main, s => ∀ n, s.running n = true → ∃ js, s.gathering = some js ∧ n ∈ js
  | _, _ => True

/-- The calls of a task whose end was told are followed no more, or the task holds the lock. -/
def Stills (i : Thread) (s : Run) : Prop :=
  ∀ (k : ℕ) (c : Call), s.calls[k]? = some c → c.thread = i → c.key ∈ s.progress.finished →
    c.ended.isSome → s.Quiet k ∨ s.eventLock.holder = some i

theorem Observed.wake (h : Observed x a none s) (i : Thread) : Observed x a (some i) s where
  queue := h.queue
  story := h.story
  follows :=
    { h.follows with still := fun k c hc _ => h.follows.still k c hc (by simp) }
  works :=
    { h.works with
      gathered := fun _ => h.works.gathered (by simp) }
  closes := h.closes

/-- **A running task may suspend.** -/
theorem Observed.park (h : Observed x a (some i) s) (hpark : Parks i s) (hstill : Stills i s) :
    Observed x a none s where
  queue := h.queue
  story := h.story
  follows :=
    { h.follows with
      still := fun k c hc _ hf hend => by
        by_cases hi : c.thread = i
        · rw [hi]
          exact hstill k c hc hi hf hend
        · exact h.follows.still k c hc (fun heq => hi (Option.some.inj heq).symm) hf hend }
  works :=
    { h.works with
      gathered := fun _ n hn => by
        cases i with
        | main => exact hpark n hn
        | _ => exact h.works.gathered (by simp) n hn }
  closes := h.closes

/-- **An expected event may be handed out** by the holder of the lock. -/
theorem Observed.handExpected (h : Observed x a (some i) s) (hqueue : Queue (s.see (.handed e)))
    (hheld : s.eventLock.holder = some i) (hemit : x.emit = true) (hnumber : s.number i ≠ 0)
    (hok : ∀ k, i = .follower k → s.toLedger.Ok x anyEnd) (ht : Tellable x a i e.data s)
    (hflag : e.done = e.data.metrics?.isSome) : Observed x a (some i) (s.see (.handed e)) where
  queue := hqueue
  story := h.story.hand hemit ht hflag
  follows :=
    { h.follows.hand h.works.ids h.story.accepts.planned ht hheld with
      still := fun k c hc _ => (h.follows.hand h.works.ids h.story.accepts.planned ht hheld).still
        k c hc (by simp) }
  works := h.works.hand h.follows h.story.accepts.planned hemit hnumber hok ht
  closes := h.closes.hand h.story ht

/-- **A late output may be handed out**: it tells nothing new. -/
theorem Observed.handLate (h : Observed x a (some i) s) (hqueue : Queue (s.see (.handed e)))
    (hemit : x.emit = true) (hlate : ¬ a.heeded) (hd : s.progress.Late e.data)
    (hflag : e.done = e.data.metrics?.isSome) : Observed x a (some i) (s.see (.handed e)) := by
  have hprog : (s.see (.handed e)).progress = s.progress := by
    rw [progress_see_handed, hd.after]
  have hmem : ∀ e' ∈ handed (s.see (.handed e)).log, e' ∈ handed s.log ∨ e' = e := by
    intro e' he'
    rwa [Run.see, handed_concat_handed, List.mem_append, List.mem_singleton] at he'
  have hnone : ∀ m, e.data.metrics? ≠ some m := fun m hm => by
    rw [hd.metrics] at hm
    cases hm
  have hstory : Story x a (s.see (.handed e)) :=
    { silent := fun he => by simp [he] at hemit
      accepts := by
        rw [Run.see, told, handed_concat_handed, List.map_append, List.map_singleton]
        exact .concat h.story.accepts (.inr ⟨hlate, hd⟩)
      finished := by rw [hprog]; exact h.story.finished
      outputs := by rw [hprog]; exact h.story.outputs
      done := by rw [hprog]; exact h.story.done
      requests := by
        have hsame : requested (s.see (.handed e)).log = requested s.log := by
          simp [requested, Run.see, List.filterMap_append, Entry.call?]
        rw [hsame]
        exact h.story.requests
      recorded := h.story.recorded
      flags := fun e' he' => by
        rcases hmem e' he' with he' | rfl
        · exact h.story.flags e' he'
        · exact hflag }
  refine ⟨hqueue, hstory, ?_, ?_, ?_⟩
  · exact
      { h.follows with
        link := by rw [hprog]; exact h.follows.link
        still := by rw [hprog]; exact h.follows.still }
  · exact
      { h.works with
        planned := by rw [hprog]; exact h.works.planned
        fresh := by rw [hprog]; exact h.works.fresh
        jobs := fun n job hj hout =>
          have hjob := h.works.jobs n job hj hout
          { hjob with
            told := by rw [hprog]; exact hjob.told
            unhurt := by rw [hprog]; exact hjob.unhurt
            calm := by rw [hprog]; exact hjob.calm } }
  · refine ⟨fun hend => ?_, h.closes.last.concat rfl, fun e' he' m hm => ?_,
      fun ha hstop e' he' m hm => ?_, by rw [hprog]; exact h.closes.returns⟩
    · rw [hprog] at hend
      have hover := h.closes.atEnd hend
      exact
        { hover with
          calm := by rw [hprog]; exact hover.calm
          told := by rw [hprog]; exact hover.told }
    · rcases hmem e' he' with he' | rfl
      · exact h.closes.metrics e' he' m hm
      · exact absurd hm (hnone m)
    · rw [hprog] at hstop
      rcases hmem e' he' with he' | rfl
      · exact h.closes.completes ha hstop e' he' m hm
      · exact hnone m (by rw [hm]; rfl)

/-- **A fit event may be handed out** by the holder of the lock. -/
theorem Observed.hand (h : Observed x a (some i) s) (hqueue : Queue (s.see (.handed e)))
    (hheld : s.eventLock.holder = some i) (hemit : x.emit = true) (hnumber : s.number i ≠ 0)
    (hok : ∀ k, i = .follower k → s.toLedger.Ok x anyEnd) (ht : Fit x a i e.data s)
    (hflag : e.done = e.data.metrics?.isSome) : Observed x a (some i) (s.see (.handed e)) := by
  rcases ht with ht | ⟨hlate, hd, -⟩
  · exact h.handExpected hqueue hheld hemit hnumber hok ht hflag
  · exact h.handLate hqueue hemit hlate hd hflag

end Hand

end HorizonRelay
