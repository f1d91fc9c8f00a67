import HorizonRelay.Observe.Sound
import HorizonRelay.Runs.Tasks

/-!
# The events of a run

What a progress callback may rely on, however the tasks of a run interleave, whatever the
callback does, and whenever the run is cancelled or out of time.  The one thing that is up to
the callback is when the outputs of a call stop: a follower is cancelled in the middle of its
event when the call ends, and goes on when the callback catches that.

## Main definitions

* `InTurn`, `Serialized` — events come one at a time and in order, outputs before the end.
* `heeding` — a callback that lets the cancellation of a follower through.
* `CleanStop` — what has stopped when the end of a run is told.

## Main results

* `events_serialized` — events are serialized, the outputs with a callback that heeds.
* `outlivedRun_late` — what a callback that does not heed gets.
* `clean_stop` — a run stops cleanly.
-/

namespace HorizonRelay

open Py Coop

variable {x : Setup} {s s' : Run} {c c' : State}

/-- Every step keeps to premises that assume nothing. -/
theorem Premises.admits_default (c : State) (l : Label Thread Choice Move) :
    Premises.Admits {} c l where
  resume _ _ _ _ _ _ := ⟨fun h => h.elim, fun h => h.elim, fun h => h.elim⟩
  move h := h.elim

theorem Setup.Reachable.observed (h : x.Reachable c) : Observed x {} none c.shared :=
  observed_of_reach (h.mono fun c l _ => Premises.admits_default c l)

/-! ## One at a time -/

/-- The record of the call an event reports on. -/
def EventData.record? : EventData → Option CallRecord
  | .callFinished r | .callOutput r .. => some r
  | _ => none

/-- The progress callback gets one event at a time, in order. -/
structure InTurn (s : Run) : Prop where
  single : ∀ w, w <+: s.log → (inProgress w).length ≤ 1
  ordered : ((handed s.log).map RelayEvent.seq).Pairwise (· < ·)
  /-- The record in an event is that of one call. -/
  named : ∀ e ∈ handed s.log, ∀ r, e.data.record? = some r →
    ∃! k : ℕ, ∃ c : Call, s.calls[k]? = some c ∧ c.key = r.key

/-- The progress callback gets one event at a time, in order, and nothing about the output of
a call after its end. -/
structure Serialized (s : Run) : Prop extends InTurn s where
  outputs : ∀ before e after r, handed s.log = before ++ e :: after →
    e.data = .callFinished r → ∀ e' ∈ after, ∀ r' o n, e'.data = .callOutput r' o n →
    r'.key ≠ r.key

theorem told_append {before after : List RelayEvent} {e : RelayEvent}
    (h : handed s.log = before ++ e :: after) :
    told s.log = before.map RelayEvent.data ++ e.data :: after.map RelayEvent.data := by
  rw [told, h, List.map_append, List.map_cons]

theorem Observed.inTurn {a : Premises} (h : Observed x a none s)
    (hok : s.toLedger.Ok x anyEnd) : InTurn s where
  single := h.queue.serial
  ordered := h.queue.increasing
  named e he r hr := by
    have htold : e.data ∈ told s.log := List.mem_map_of_mem he
    have hcall : ∃ c ∈ s.calls, c.key = r.key := by
      cases hd : e.data with
      | callFinished r' =>
          rw [hd] at hr htold
          cases hr
          obtain ⟨c, hc, hkey, -⟩ := h.story.finished r.key
            (Progress.mem_finished_of.mpr ⟨r, htold, rfl⟩)
          exact ⟨c, hc, hkey⟩
      | callOutput r' o n =>
          rw [hd] at hr htold
          cases hr
          exact h.story.outputs r.key (Progress.mem_outputs_of.mpr ⟨r, o, n, htold, rfl⟩)
      | _ => simp [hd, EventData.record?] at hr
    obtain ⟨c, hc, hkey⟩ := hcall
    obtain ⟨k, hk⟩ := List.mem_iff_getElem?.mp hc
    refine ⟨k, ⟨c, hk, hkey⟩, ?_⟩
    rintro j ⟨d, hd, hkey'⟩
    exact hok.eq_of_slot hd hk (congrArg Key.slot (hkey'.trans hkey.symm))

theorem Observed.serialized {a : Premises} (h : Observed x a none s)
    (hok : s.toLedger.Ok x anyEnd) (ha : a.heeded) : Serialized s where
  toInTurn := h.inTurn hok
  outputs before e after r hsplit hr e' he' r' o n hr' hkey := by
    obtain ⟨between, rest, rfl⟩ := List.append_of_mem he'
    have hsplit' : handed s.log = (before ++ e :: between) ++ e' :: rest := by simp [hsplit]
    have haccepts := h.story.accepts
    rw [told_append hsplit', hr'] at haccepts
    have hexpects := haccepts.admits.expects (not_not_intro ha)
    refine hexpects.allows.2 (Progress.mem_finished_of.mpr ⟨r, ?_, hkey.symm⟩)
    exact List.mem_map.mpr ⟨e, by simp, hr⟩

/-- The callback lets the cancellation of a follower through. -/
def heeding : Premises := { heeded := True }

/-- **Progress is serialized.** In every reachable state at most one callback is in progress
and never were more, and the numbers handed out increase. When no callback kept a follower
from its cancellation on the way there, no output of a call came after its end either. -/
theorem events_serialized (h : x.Reachable c) :
    InTurn c.shared ∧ (x.system.Reach {} heeding.Admits c → Serialized c.shared) :=
  ⟨h.observed.inTurn h.ok, fun hr => (observed_of_reach hr).serialized h.ok trivial⟩

/-- A request whose progress is shown while the models write. -/
def liveSetup : Setup := { planSetup with emit := true, provider := { streams := true } }

/-- The caller's task is answered in the ordinary way, `n` times. -/
def goOn (n : ℕ) : List (Label Thread Choice Move) := List.replicate n (.resume .main .go)

/-- A local model writes, its output is shown, and it fails. -/
def liveRun : List (Label Thread Choice Move) :=
  goOn 3 ++ [.move (.delta 0 "x".toList), .resume (.follower 0) .go,
    .resume .main (.raise (relayError [])), .resume (.follower 0) .go, .resume .main .go]

/-- A step at which no callback catches a cancellation, wherever the tasks are. -/
def letsThrough (c : State) : Label Thread Choice Move → Bool
  | .resume _ .cancel | .move _ => true
  | .resume i _ => i ∉ c.shared.cancels

theorem admits_letsThrough {l : Label Thread Choice Move} (h : letsThrough c l = true) :
    heeding.Admits c l where
  resume i m op cont hl hp := by
    subst hl
    refine ⟨fun h => h.elim, fun h => h.elim, fun _ e he k hk hi => ?_⟩
    cases m with
    | cancel => rfl
    | _ => exact absurd hi (of_decide_eq_true h)
  move h := h.elim

/-- A list of labels at which no callback catches a cancellation. -/
theorem exists_reach_letsThrough (ls : List (Label Thread Choice Move)) {p : State → Bool}
    (h : (x.system.checkedSteps letsThrough (x.system.init {}) ls).any p = true) :
    ∃ c, x.system.Reach {} heeding.Admits c ∧ p c = true := by
  obtain ⟨c, hc, hp⟩ := Option.any_eq_true _ _ |>.mp h
  exact ⟨c, System.reach_of_checkedSteps (fun _ _ hl => admits_letsThrough hl) .init hc, hp⟩

theorem events_serialized_liveRun : ∃ c : State, Serialized c.shared ∧
    c.shared.progress.outputs = [⟨.judge .small 1, .small⟩] ∧
      c.shared.progress.finished = [⟨.judge .small 1, .small⟩] := by
  obtain ⟨c, hc, h⟩ := exists_reach_letsThrough (x := liveSetup) liveRun
    (p := fun c => c.shared.progress.outputs = [⟨.judge .small 1, .small⟩] ∧
      c.shared.progress.finished = [⟨.judge .small 1, .small⟩]) (by decide +kernel)
  exact ⟨c, (events_serialized hc.any).2 hc, by simpa using h⟩

/-- A local model writes and its output is shown, it writes more, and it answers. The callback
that shows the output catches the cancellation of the follower, which tells the rest once the
end of the call was told. -/
def outlivedRun : List (Label Thread Choice Move) :=
  goOn 3 ++ [.move (.delta 0 "x".toList), .resume (.follower 0) .go,
    .move (.delta 0 "y".toList), .resume .main (replyWith (.str "4".toList)),
    .resume (.follower 0) .go, .resume .main .go, .resume (.follower 0) .go, .resume .main .go,
    .resume (.follower 0) .go]

/-- Whether the last event is the output of a call that was told to be finished before. -/
def endsLate (ds : List EventData) : Bool :=
  match ds.reverse with
  | .callOutput r' _ _ :: .callFinished r :: _ => r'.key = r.key
  | _ => false

theorem not_serialized_of_endsLate (h : endsLate (told s.log) = true) : ¬ Serialized s := by
  intro hs
  unfold endsLate at h
  split at h
  · rename_i r' o n r rest hds
    have hsplit : (handed s.log).map RelayEvent.data =
        (rest.reverse ++ [.callFinished r]) ++ [.callOutput r' o n] := by
      simpa [told] using congrArg List.reverse hds
    obtain ⟨front, last, hlog, hfront, hlast⟩ := List.map_eq_append_iff.mp hsplit
    obtain ⟨before, mid, rfl, -, hmid⟩ := List.map_eq_append_iff.mp hfront
    obtain ⟨e', rfl, he'⟩ := List.map_eq_singleton_iff.mp hlast
    obtain ⟨e, rfl, he⟩ := List.map_eq_singleton_iff.mp hmid
    refine hs.outputs before e [e'] r (by simpa using hlog) he e' (by simp) r' o n he' ?_
    exact of_decide_eq_true h
  · cases h

theorem outlivedRun_late : ¬ ∀ c : State, liveSetup.Reachable c → Serialized c.shared := by
  obtain ⟨c, hc, h⟩ := System.exists_reach_of_steps (S := liveSetup.system) (s := {}) outlivedRun
    (p := fun c => endsLate (told c.shared.log)) (by decide +kernel)
  exact fun hall => not_serialized_of_endsLate h (hall c hc)

/-! ## A clean stop -/

/-- An event that ends the run. -/
def RelayEvent.Terminal (e : RelayEvent) : Prop := e.data.metrics?.isSome

/-- A run that was told to have ended has stopped. -/
structure CleanStop (s : Run) : Prop where
  /-- No call is requested after the event. -/
  calls : ∀ before e after, s.log = before ++ .handed e :: after → e.Terminal →
    requested after = []
  idle : ∀ e ∈ handed s.log, e.Terminal → ∀ n, s.running n = false
  /-- The answer is put together only when every worker has returned a value. -/
  synthesis : ∀ c ∈ s.calls, c.payload.operation = .synthesize →
    ∀ job ∈ s.jobs, ∃ v, job.outcome = some (.ok v)
  outcomes : ∀ e ∈ handed s.log, ∀ m, e.data.metrics? = some m →
    ∀ r ∈ m.calls, r.outcome ≠ .started

theorem Observed.ended {a : Premises} {who : Option Thread} (h : Observed x a who s)
    {e : RelayEvent} (he : e ∈ handed s.log) (ht : e.Terminal) : s.progress.Ended :=
  h.story.accepts.ended (List.mem_map_of_mem he) ht

theorem Observed.cleanStop {a : Premises} {who : Option Thread} (h : Observed x a who s) :
    CleanStop s where
  calls := h.closes.last
  idle e he ht := (h.closes.atEnd (h.ended he ht)).idle
  synthesis c hc hop := by
    refine h.works.assembled c hc ?_
    rw [Call.slot]
    cases hp : c.payload <;> simp [hp, Payload.operation] at hop
    rfl
  outcomes e he m hm r hr := by
    have hover := h.closes.atEnd (h.ended he (by rw [RelayEvent.Terminal, hm]; rfl))
    rw [h.closes.metrics e he m hm] at hr
    obtain ⟨c, hc, rfl⟩ := List.mem_map.mp hr
    exact h.story.recorded c hc (hover.ended c hc)

/-- Only the main flow tells the end. -/
theorem teller_of_metrics {d : EventData} (h : d.metrics?.isSome) : d.teller = .main := by
  cases d <;> first | rfl | cases h

/-- The environment hands out nothing. -/
theorem handed_move {v : Move} (h : move x v s = some s') : handed s'.log = handed s.log := by
  cases v with
  | tick d =>
      simp only [move] at h
      split at h <;> cases h
      rfl
  | pace delay lag => cases h; rfl
  | deadline | cancelRun =>
      obtain ⟨cancels, b, timer, outside, rfl, -⟩ := Observed.move_interrupts h trivial
      rfl
  | delta k text =>
      simp only [move] at h
      split at h
      · split at h <;> cases h
        split
        · exact handed_concat_delta _ _ _
        · rfl
      · cases h

/-- What a step hands out, its task tells. -/
theorem Setup.Reachable.handed_step (h : x.Reachable c) {l : Label Thread Choice Move}
    (hs : x.system.step c l = some c') :
    ∃ new, handed c'.shared.log = handed c.shared.log ++ new ∧
      ∀ e ∈ new, ∃ i m, l = .resume i m ∧ c.shared.Tells i e.data := by
  cases l with
  | move v =>
      obtain ⟨s', hmove, rfl⟩ := System.step_move hs
      exact ⟨[], by rw [List.append_nil, handed_move hmove], by simp⟩
  | resume i m =>
      have hdoes := (Observed.observing_holds x {}).guarantees
        (h.mono fun c l _ => Premises.admits_default c l) (Premises.admits_default c _) trivial hs
      obtain ⟨new, hnew, htells⟩ := hdoes.told
      exact ⟨new, hnew, fun e he => ⟨i, m, rfl, htells e he⟩⟩

/-- **A run stops cleanly.** In every reachable state no call came after an event that ended
the run, nothing was put together from a batch that failed, and no call such an event lists is
still in progress; and in the state a step that hands out such an event starts from, every
worker has ended. -/
theorem clean_stop (h : x.Reachable c) : CleanStop c.shared ∧
    ∀ l c', x.system.step c l = some c' →
      ∃ new, handed c'.shared.log = handed c.shared.log ++ new ∧
        ∀ e ∈ new, e.Terminal → ∀ n, c.shared.running n = false := by
  refine ⟨h.observed.cleanStop, fun l c' hs => ?_⟩
  obtain ⟨new, hnew, htells⟩ := h.handed_step hs
  refine ⟨new, hnew, fun e he ht n => ?_⟩
  obtain ⟨i, m, rfl, htell⟩ := htells e he
  have hmain : i = .main := by
    have hteller := teller_of_metrics ht
    cases i with
    | main => rfl
    | job k =>
        obtain ⟨job, -, hjob⟩ := htell
        rw [hteller] at hjob
        cases hjob
    | follower k =>
        obtain ⟨d, -, -, hd, -⟩ := htell
        rw [hteller] at hd
        cases hd
  subst hmain
  have h' : x.Reachable c' := .step h trivial hs
  have hidle := h'.observed.cleanStop.idle e (by rw [hnew]; simp [he]) ht n
  -- the main flow ends no job
  obtain ⟨more, hmore⟩ := MainStep.jobs
    ((contract_holds x anyEnd).guarantees h.admitted (admits_anyEnd _ _) trivial hs)
  by_contra hn
  have hn : c.shared.running n = true := by simpa using hn
  rw [running_of_jobs (s := c.shared) ?_] at hidle
  · rw [hn] at hidle
    cases hidle
  · rw [hmore, List.getElem?_append_left (lt_of_running hn)]

/-- The local model fails, and the cloud plans the given rows, with every step told. -/
def toldPlan (rows : List Json) : List (Label Thread Choice Move) :=
  goOn 3 ++ .resume .main (.raise (relayError [])) :: goOn 4 ++
    .resume .main (replyWith (planReply rows)) :: goOn 2

/-- Two workers are cancelled: one in its call, and one while its first event is told. -/
def cancelledRun : List (Label Thread Choice Move) :=
  toldPlan [taskRow "one" "local" [], taskRow "two" "local" []] ++
    [.resume (.job 0) .go, .resume (.job 0) .go, .resume (.job 0) .go, .resume (.job 1) .go,
      .resume (.job 1) .go, .move .cancelRun, .resume (.job 0) .cancel,
      .resume (.job 1) .cancel, .resume .main .go, .resume .main .go]

theorem clean_stop_cancelledRun : ∃ c : State, CleanStop c.shared ∧ c.shared.jobs.length = 2 ∧
    ∃ e ∈ handed c.shared.log, e.Terminal := by
  obtain ⟨c, hc, h⟩ := System.exists_reach_of_steps (S := liveSetup.system) (s := {}) cancelledRun
    (p := fun c => c.shared.jobs.length = 2 &&
      (handed c.shared.log).any fun e => e.data.metrics?.isSome) (by decide +kernel)
  obtain ⟨hjobs, hlast⟩ := Bool.and_eq_true_iff.mp h
  obtain ⟨e, he, ht⟩ := List.any_eq_true.mp hlast
  exact ⟨c, (clean_stop hc).1, by simpa using hjobs, e, he, ht⟩

end HorizonRelay
