import HorizonRelay.Engine.Clock
import HorizonRelay.Parallelism

/-!
# Runs that did nothing in parallel

The records of a run's work calls are the rounded readings of its clock, so what
`Parallelism` says about rounded records is said about runs.

## Main definitions

* `Setup.Timed` — the states of a run, with the times at which its calls ended.
* `timeline` — the work calls of a run and their times.
* `Unparallel` — the evaluation finds no two subtasks that ran at the same time.

## Main results

* `unparallel_iff` — when it finds none in a run whose work calls followed each other.
* `unparallel_chain` — a run of two tasks, one after the other, in which it finds some.
-/

namespace HorizonRelay

open Py Coop

variable {x : Setup} {c c' : State} {t : ℕ → ℚ} {s s' : Run}

/-- Whether call `k` has ended. -/
def Run.hasEnded (s : Run) (k : ℕ) : Bool := (s.calls[k]?).any fun c => c.ended.isSome

/-- A call that ended in a step did so at its beginning, before it began others. -/
def noteEnds (t : ℕ → ℚ) (s s' : Run) (k : ℕ) : ℚ :=
  if s'.hasEnded k && !s.hasEnded k then s.now else t k

/-- The states of a run, with the time at which each call ended. -/
inductive Setup.Timed (x : Setup) : State → (ℕ → ℚ) → Prop
  | init : x.Timed (x.system.init {}) fun _ => 0
  | step {c c' : State} {t : ℕ → ℚ} {l : Label Thread Choice Move} :
      x.Timed c t → x.system.step c l = some c' → x.Timed c' (noteEnds t c.shared c'.shared)

theorem Setup.Timed.reachable (h : x.Timed c t) : x.Reachable c := by
  induction h with
  | init => exact .init
  | step _ hs ih => exact .step ih trivial hs

/-- Every state of a run has its times. -/
theorem Setup.Reachable.timed (h : x.Reachable c) : ∃ t, x.Timed c t := by
  induction h with
  | init => exact ⟨_, .init⟩
  | step _ _ hs ih =>
      obtain ⟨t, ht⟩ := ih
      exact ⟨_, .step ht hs⟩

/-! ## What the records say -/

/-- The records have the rounded times of their calls. -/
structure OnTime (s : Run) (t : ℕ → ℚ) : Prop where
  started : ∀ (k : ℕ) (c : Call), s.calls[k]? = some c →
    c.record.startedMs = roundHalfEven (c.opened * 1000) ∧ c.begun ≤ s.now
  running : ∀ (k : ℕ) (c : Call), s.calls[k]? = some c → c.ended = none → c.record.elapsedMs = 0
  ended : ∀ (k : ℕ) (c : Call), s.calls[k]? = some c → c.ended.isSome = true →
    c.begun ≤ t k ∧ c.record.elapsedMs = roundHalfEven ((t k - c.begun) * 1000)
  sorted : ∀ (j k : ℕ) (c d : Call), j < k → s.calls[j]? = some c → s.calls[k]? = some d →
    c.opened ≤ d.opened

/-- Passing time changes no record. -/
theorem OnTime.of_calls (h : OnTime s t) (hc : s'.calls = s.calls) (hn : s.now ≤ s'.now) :
    OnTime s' (noteEnds t s s') := by
  have ht : noteEnds t s s' = t := by
    funext k
    simp [noteEnds, Run.hasEnded, hc]
  rw [ht]
  refine ⟨fun k c hk => ?_, fun k c hk => h.running k c (hc ▸ hk),
    fun k c hk => h.ended k c (hc ▸ hk),
    fun j k c d hjk hj hk => h.sorted j k c d hjk (hc ▸ hj) (hc ▸ hk)⟩
  obtain ⟨hs, hle⟩ := h.started k c (hc ▸ hk)
  exact ⟨hs, hle.trans hn⟩

/-- A call after a clocked step is as it was, has just ended, or has just begun. -/
theorem Clocked.call_cases {i : Thread} (h : Clocked i s s') {k : ℕ} {c' : Call}
    (hk : s'.calls[k]? = some c') :
    s.calls[k]? = some c' ∨ (∃ c, s.calls[k]? = some c ∧ c.EndedAt s.now c') ∨
      s.calls[k]? = none ∧ c'.BegunIn s.now s'.now := by
  cases hold : s.calls[k]? with
  | none => exact .inr (.inr ⟨rfl, h.new k c' (List.getElem?_eq_none_iff.mp hold) hk⟩)
  | some c =>
      obtain ⟨d, hd, hor⟩ := h.old k c hold
      obtain rfl := Option.some.inj (hk.symm.trans hd)
      rcases hor with rfl | ⟨-, hend⟩
      · exact .inl rfl
      · exact .inr (.inl ⟨c, rfl, hend⟩)

/-- When a call began does not change; a new one begins after those before the step. -/
theorem Clocked.opened_cases {i : Thread} (h : Clocked i s s') {k : ℕ} {c' : Call}
    (hk : s'.calls[k]? = some c') :
    (∃ c, s.calls[k]? = some c ∧ c'.opened = c.opened) ∨
      s.calls.length ≤ k ∧ s.now ≤ c'.opened := by
  rcases h.call_cases hk with hold | ⟨c, hold, hend⟩ | ⟨hnone, hnew⟩
  · exact .inl ⟨c', hold, rfl⟩
  · exact .inl ⟨c, hold, hend.opened⟩
  · exact .inr ⟨List.getElem?_eq_none_iff.mp hnone, hnew.low⟩

/-- A clocked step keeps the records on time. -/
theorem OnTime.of_clocked {i : Thread} (h : OnTime s t) (hc : Clocked i s s') :
    OnTime s' (noteEnds t s s') := by
  have hstarted : ∀ (k : ℕ) (c : Call), s'.calls[k]? = some c →
      c.record.startedMs = roundHalfEven (c.opened * 1000) ∧ c.begun ≤ s'.now := by
    intro k c hk
    rcases hc.call_cases hk with hold | ⟨d, hold, hend⟩ | ⟨-, hnew⟩
    · exact (h.started k c hold).imp_right fun hle => hle.trans hc.now
    · rw [hend.started, hend.opened, hend.begun]
      exact (h.started k d hold).imp_right fun hle => hle.trans hc.now
    · exact ⟨hnew.started, hnew.high⟩
  refine ⟨hstarted, fun k c hk hopen => ?_, fun k c hk hend => ?_, fun j k c d hjk hj hk => ?_⟩
  · rcases hc.call_cases hk with hold | ⟨d, -, hend⟩ | ⟨-, hnew⟩
    · exact h.running k c hold hopen
    · have := hend.ended
      rw [hopen] at this
      cases this
    · exact hnew.elapsed
  · rcases hc.call_cases hk with hold | ⟨d, hold, hd⟩ | ⟨-, hnew⟩
    · have ht : noteEnds t s s' k = t k := by simp [noteEnds, Run.hasEnded, hold, hk, hend]
      rw [ht]
      exact h.ended k c hold hend
    · have ht : noteEnds t s s' k = s.now := by
        simp [noteEnds, Run.hasEnded, hold, hk, hend, hd.running]
      rw [ht, hd.begun]
      exact ⟨(h.started k d hold).2, hd.elapsed⟩
    · rw [hnew.running] at hend
      cases hend
  · -- both calls are old, only the later one is new, or both are
    rcases hc.opened_cases hj with ⟨c', hc', hopened⟩ | ⟨hnew, -⟩
    · rw [hopened]
      rcases hc.opened_cases hk with ⟨d', hd', hopened'⟩ | ⟨-, hlow⟩
      · rw [hopened']
        exact h.sorted j k c' d' hjk hc' hd'
      · exact c'.opened_le.trans ((h.started j c' hc').2.trans hlow)
    · exact hc.sorted j k c d hnew hjk hj hk

/-- **The records of a run are on time.** -/
theorem Setup.Timed.onTime (h : x.Timed c t) : OnTime c.shared t := by
  induction h with
  | init => constructor <;> simp [System.init]
  | step h hs ih =>
      rcases h.reachable.clocked hs with ⟨i, hc⟩ | ⟨hcalls, hnow⟩
      · exact ih.of_clocked hc
      · exact ih.of_calls hcalls hnow

/-! ## The evaluation of a run -/

/-- The record of a call, as the metrics of a run have it. -/
def CallRecord.entry (r : CallRecord) : CallEntry where
  operation := r.operation.name
  tier := r.tier.name
  taskId := r.taskId
  startedMs := some r.startedMs
  elapsedMs := some r.elapsedMs

/-- The evaluation of a run's metrics. -/
def Metrics.delegation (m : Metrics) : Delegation :=
  HorizonRelay.delegation (m.calls.map CallRecord.entry)

/-- A call with its times. One that has not ended has taken no time yet, as its record says. -/
def Call.timed (c : Call) (t : ℚ) : TimedCall where
  taskId := c.record.taskId
  tier := c.record.tier
  opened := c.opened
  start := c.begun
  ended := if c.ended.isSome then max c.begun t else c.begun
  opened_le := c.opened_le
  start_le := by split <;> simp

/-- The work calls of a run with their times, in the order they began. -/
def timeline (s : Run) (t : ℕ → ℚ) : List TimedCall :=
  (s.calls.zipIdx.filter fun e => e.1.record.operation = .work).map fun e => e.1.timed (t e.2)

/-- The evaluation finds no milliseconds in which two subtasks ran at the same time, and says so
to whoever demanded some. -/
def Unparallel (d : Delegation) : Prop :=
  d.parallelMs = 0 ∧ ∀ expects : Expects, expects.parallelWork = true →
    "no two subtasks ever ran at the same time".toList ∈ checkExpectations expects d

theorem unparallel_iff_eq_zero (d : Delegation) : Unparallel d ↔ d.parallelMs = 0 := by
  refine ⟨fun h => h.1, fun h => ⟨h, fun expects he => ?_⟩⟩
  simp [checkExpectations, he, h]

theorem name_eq_work_iff (op : Operation) : op.name = "work".toList ↔ op = .work := by
  cases op <;> decide

/-- The record of a work call is that of its times. -/
theorem OnTime.entry_timed (h : OnTime s t) {k : ℕ} {c : Call} (hk : s.calls[k]? = some c)
    (hwork : c.record.operation = .work) : (c.timed (t k)).entry = c.record.entry := by
  have hstarted := (h.started k c hk).1
  have helapsed : c.record.elapsedMs = TimedCall.ms ((c.timed (t k)).ended - c.begun) := by
    by_cases hend : c.ended.isSome = true
    · obtain ⟨hle, hms⟩ := h.ended k c hk hend
      simp only [Call.timed, hend, if_true, max_eq_right hle]
      exact hms
    · have hzero : TimedCall.ms 0 = 0 := by decide +kernel
      simp only [Call.timed, hend, if_false, sub_self, hzero, Bool.false_eq_true]
      exact h.running k c hk (by simpa using hend)
  simp only [TimedCall.entry, CallRecord.entry, hwork, hstarted, helapsed]
  rfl

theorem mem_zipIdx_calls {e : Call × ℕ} (he : e ∈ s.calls.zipIdx) : s.calls[e.2]? = some e.1 :=
  List.mem_zipIdx_iff_getElem?.mp he

/-- The records of a run's work calls are those of its timeline. -/
theorem OnTime.work_entries (h : OnTime s t) :
    work ((s.calls.map Call.record).map CallRecord.entry) =
      (timeline s t).map TimedCall.entry := by
  have hcalls : s.calls = s.calls.zipIdx.map Prod.fst := by simp
  rw [work, timeline, List.map_map, List.map_map]
  conv_lhs => rw [hcalls, List.map_map, List.filter_map]
  have hfilter : s.calls.zipIdx.filter
      (CallEntry.isWork ∘ ((CallRecord.entry ∘ Call.record) ∘ Prod.fst)) =
      s.calls.zipIdx.filter fun e => e.1.record.operation = .work := by
    refine List.filter_congr fun e _ => ?_
    simp only [Function.comp_apply, CallEntry.isWork, CallRecord.entry, name_eq_work_iff,
      Option.isSome_some, Bool.and_true]
  rw [hfilter]
  refine List.map_congr_left fun e he => ?_
  obtain ⟨hmem, hop⟩ := List.mem_filter.mp he
  exact (h.entry_timed (mem_zipIdx_calls hmem) (by simpa using hop)).symm

theorem OnTime.timeline_sorted (h : OnTime s t) :
    (timeline s t).Pairwise fun c d => c.opened ≤ d.opened := by
  rw [timeline, List.pairwise_map]
  refine List.Pairwise.sublist List.filter_sublist ?_
  rw [List.pairwise_iff_getElem]
  intro i j hi hj hij
  have hi' := mem_zipIdx_calls (List.getElem_mem hi)
  have hj' := mem_zipIdx_calls (List.getElem_mem hj)
  simp only [List.getElem_zipIdx, zero_add] at hi' hj' ⊢
  exact h.sorted i j _ _ hij hi' hj'

/-- What the evaluation finds in a run is what it finds in its timeline. -/
theorem OnTime.parallelMs_eq (h : OnTime s t) :
    (s.metrics x).delegation.parallelMs =
      (delegation ((timeline s t).map TimedCall.entry)).parallelMs := by
  have hwork : work ((s.metrics x).calls.map CallRecord.entry) = _ := h.work_entries
  simp only [Metrics.delegation, delegation, hwork, HorizonRelay.work_entries]

/-- **When no false parallelism is found**: in a run of which at most one work call is under way
at any time, the evaluation finds no parallel work if and only if any two of the work calls are
clear of each other, as they are when half a millisecond passed between them.  What it finds
otherwise is at most a millisecond for each call after the first. -/
theorem unparallel_iff (h : x.Timed c t) (halone : Alone (timeline c.shared t)) :
    (Unparallel (c.shared.metrics x).delegation ↔ (timeline c.shared t).Pairwise Clear) ∧
      ((timeline c.shared t).Pairwise (fun c d => c.ended + 1 / 2000 ≤ d.opened) →
        Unparallel (c.shared.metrics x).delegation) ∧
      (c.shared.metrics x).delegation.parallelMs ≤ (timeline c.shared t).tail.length := by
  have hsorted := h.onTime.timeline_sorted
  rw [unparallel_iff_eq_zero, h.onTime.parallelMs_eq]
  have hiff := parallelMs_eq_zero_iff_clear hsorted
  exact ⟨hiff, fun hpause => hiff.mpr (hpause.imp clear_of_pause), parallelMs_le hsorted halone⟩

/-! ## A chain of two tasks -/

/-- The steps of a list of labels, with the times at which calls ended. -/
def timedSteps (x : Setup) (c : State) (t : ℕ → ℚ) :
    List (Label Thread Choice Move) → Option (State × (ℕ → ℚ))
  | [] => some (c, t)
  | l :: ls => (x.system.step c l).bind fun c' => timedSteps x c' (noteEnds t c.shared c'.shared) ls

theorem Setup.Timed.of_steps (h : x.Timed c t) {ls : List (Label Thread Choice Move)}
    {r : State × (ℕ → ℚ)} (hs : timedSteps x c t ls = some r) : x.Timed r.1 r.2 := by
  induction ls generalizing c t with
  | nil => cases hs; exact h
  | cons l ls ih =>
      obtain ⟨d, hd, hs⟩ := Option.bind_eq_some_iff.mp hs
      exact ih (.step h hd) hs

/-- A list of labels that runs to a state with a property shows that one can be reached. -/
theorem exists_timed_of_steps (ls : List (Label Thread Choice Move)) {p : State × (ℕ → ℚ) → Bool}
    (h : (timedSteps x (x.system.init {}) (fun _ => 0) ls).any p = true) :
    ∃ c t, x.Timed c t ∧ p (c, t) = true := by
  obtain ⟨r, hr, hp⟩ := Option.any_eq_true _ _ |>.mp h
  exact ⟨r.1, r.2, Setup.Timed.init.of_steps hr, hp⟩

/-- Two tasks, the second of which depends on the first, carried out one right after the other.
The first call is under way from 0.6 to 1.2 milliseconds, with a time between the two readings
of the clock at its start, the second for one more. -/
def chainRun (lag : NNRat) : List (Label Thread Choice Move) :=
  planned [taskRow "one" "local" [], taskRow "two" "cloud" ["one"]] ++
    [.move (.tick (6 / 10000)), .move (.pace 0 lag), .resume (.job 0) .go, .resume (.job 0) .go,
      .move (.tick (6 / 10000 - lag)), .resume (.job 0) (replyWith (workValue "4")),
      .move (.pace 0 0), .resume .main .go, .resume .main .go, .resume (.job 1) .go,
      .move (.tick (1 / 1000)), .resume (.job 1) (replyWith (workValue "5")),
      .resume .main .go, .resume .main .go, .resume .main (replyWith (.str "done".toList))]

/-- Whether each work call of a run began after those before it had ended. -/
def followed (s : Run) (t : ℕ → ℚ) : Bool :=
  decide ((timeline s t).Pairwise fun c d => c.ended ≤ d.opened)

/-- A tenth of a millisecond between the readings is enough for the first record to be right. -/
theorem unparallel_iff_spaced : ∃ c t, planSetup.Timed c t ∧ (timeline c.shared t).length = 2 ∧
    Unparallel (c.shared.metrics planSetup).delegation := by
  obtain ⟨c, t, ht, h⟩ := exists_timed_of_steps (x := planSetup) (chainRun (11 / 100000))
    (p := fun r => followed r.1.shared r.2 && decide ((timeline r.1.shared r.2).length = 2) &&
      decide ((timeline r.1.shared r.2).Pairwise Clear)) (by decide +kernel)
  simp only [followed, Bool.and_eq_true, decide_eq_true_eq] at h
  exact ⟨c, t, ht, h.1.2, (unparallel_iff ht (alone_of_ended h.1.1)).1.mpr h.2⟩

/-- Without it the first call seems to end a millisecond after the second one began. -/
theorem unparallel_chain : ¬ ∀ (x : Setup) (c : State) (t : ℕ → ℚ), x.Timed c t →
    Alone (timeline c.shared t) → Unparallel (c.shared.metrics x).delegation := by
  intro hall
  obtain ⟨c, t, ht, h⟩ := exists_timed_of_steps (x := planSetup) (chainRun 0)
    (p := fun r => followed r.1.shared r.2 &&
      decide ((r.1.shared.metrics planSetup).delegation.parallelMs = 1)) (by decide +kernel)
  simp only [followed, Bool.and_eq_true, decide_eq_true_eq] at h
  have hzero := (hall planSetup c t ht (alone_of_ended h.1)).1
  rw [h.2] at hzero
  cases hzero

end HorizonRelay
