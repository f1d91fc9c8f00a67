import HorizonRelay.Runs.Events

/-!
# What the events say about the end

The protocol of progress events is one the engine keeps to, whatever happens; outputs come
late only when a callback kept a follower from its cancellation.  What the protocol leaves
open about the end of a run depends on the environment: a run that nobody interrupts once it
has told its completion has one ending, and a run whose workers get to announce what they
accepted lists exactly the tasks it told to be completed.

## Main definitions

* `Progress.Runs` — events that follow each other in the protocol.
* `OneEnding`, `Announced` — what the events say about the end of a run.

## Main results

* `protocol_refined` — the engine keeps to the protocol.
* `one_ending`, `tasks_announced` — the end, under what it takes.
-/

namespace HorizonRelay

open Py Coop

variable {x : Setup} {c c' : State}

/-! ## The protocol -/

namespace Progress

variable {late : Prop} {before after ds new : List EventData} {d : EventData} {id : Str}

/-- Events that follow each other: each of them is expected when it comes or, where outputs may
come late, is such an output. -/
inductive Runs (late : Prop) : Progress → List EventData → Progress → Prop
  | nil (p : Progress) : Runs late p [] p
  | concat {p q : Progress} {ds : List EventData} {d : EventData} :
      Runs late p ds q → q.Admits late d → Runs late p (ds ++ [d]) (q.after d)

theorem Accepts.runs (h : Accepts late (ds ++ new)) :
    Runs late (of ds) new (of (ds ++ new)) := by
  induction new using List.reverseRecOn with
  | nil => simpa using Runs.nil (of ds)
  | append_singleton new d ih =>
      rw [← List.append_assoc] at h ⊢
      obtain ⟨h, he⟩ := accepts_concat.mp h
      rw [of_concat]
      exact .concat (ih h) he

/-- After an event that ends the run come ends and late outputs only. -/
theorem Accepts.after_end (h : Accepts late (before ++ d :: after)) (hd : d.metrics?.isSome)
    {d' : EventData} (hd' : d' ∈ after) :
    d'.metrics?.isSome ∨ ∃ key, d'.teller = .output key := by
  obtain ⟨mid, rest, rfl⟩ := List.append_of_mem hd'
  have hsplit : before ++ d :: (mid ++ d' :: rest) = (before ++ d :: mid) ++ d' :: rest := by simp
  rw [hsplit] at h
  rcases h.admits with he | ⟨-, hl⟩
  · left
    rcases h.of_append.ended (d := d) (by simp) hd with hmain | hmain
    · obtain ⟨m, rfl | rfl⟩ := he.2.1 hmain <;> rfl
    · exact absurd hmain he.1
  · obtain ⟨key, -, ht⟩ := hl.teller
    exact .inr ⟨key, ht⟩

/-- After an event that ends the run the protocol has room for one more, and only when the
first was the completion. -/
theorem Accepts.ends (h : Accepts late (before ++ d :: after)) (hl : ¬ late)
    (hd : d.metrics?.isSome) :
    after = [] ∨ (∃ m, d = .runCompleted m) ∧
      (∃ d' m, after = [d'] ∧ (d' = .runFailed m ∨ d' = .runCancelled m)) ∧
        (of (before ++ d :: after)).main = .stopped := by
  cases after with
  | nil => exact .inl rfl
  | cons d' rest =>
      right
      have hsplit : before ++ d :: d' :: rest = (before ++ [d]) ++ d' :: rest := by simp
      have he : ((of before).after d).Expects d' := by
        rw [hsplit] at h
        simpa using h.admits.expects hl
      cases d with
      | runCompleted m =>
          obtain ⟨m', hd'⟩ := he.2.1 rfl
          have hstop : (((of before).after (.runCompleted m)).after d').main = .stopped := by
            rcases hd' with rfl | rfl <;> rfl
          have hrest : rest = [] := by
            cases rest with
            | nil => rfl
            | cons d'' rest =>
                have hsplit' : before ++ .runCompleted m :: d' :: d'' :: rest =
                    (before ++ [.runCompleted m] ++ [d']) ++ d'' :: rest := by simp
                rw [hsplit'] at h
                have hnot := (h.admits.expects hl).1
                rw [of_concat, of_concat] at hnot
                exact absurd hstop hnot
          subst hrest
          refine ⟨⟨m, rfl⟩, ⟨d', m', rfl, hd'⟩, ?_⟩
          rw [hsplit, of_concat, of_concat]
          exact hstop
      | runFailed | runCancelled => exact absurd rfl he.1
      | _ => cases hd

/-- A task told to be completed is done from then on. -/
theorem Accepts.done_of_mem (h : Accepts late ds) {tier : Tier} {n : ℕ} {j : Option Judgment}
    {r : Json} (hd : .taskCompleted id tier n j r ∈ ds) :
    ∃ t, (of ds).tasks id = some (.done t) := by
  induction h with
  | nil => cases hd
  | @concat ds d h he ih =>
      rw [of_concat]
      rcases List.mem_append.mp hd with hd | hd
      · obtain ⟨t, ht⟩ := ih hd
        exact ⟨t, h.planned.done he ht⟩
      · obtain rfl := List.mem_singleton.mp hd
        exact ⟨tier, Function.update_self id _ _⟩

/-- A task is done because that was told. -/
theorem mem_of_done {t : Tier} (h : (of ds).tasks id = some (.done t)) :
    ∃ tier n j r, .taskCompleted id tier n j r ∈ ds := by
  induction ds using List.reverseRecOn with
  | nil => cases h
  | append_singleton ds d ih =>
      rw [of_concat] at h
      rcases done_after h with h | ⟨tier, n, j, r, rfl⟩
      · obtain ⟨tier, n, j, r, hmem⟩ := ih h
        exact ⟨tier, n, j, r, by simp [hmem]⟩
      · exact ⟨tier, n, j, r, by simp⟩

end Progress

/-- **The engine keeps to the protocol.** In every reachable state the events handed out lead
the protocol from its start to the progress they tell, and what a step hands out, if anything,
can come next. Outputs come late only when some callback kept a follower from its cancellation:
without one, every event is expected when it comes. -/
theorem protocol_refined {a : Premises} (h : x.system.Reach {} a.Admits c) :
    Progress.Runs (¬ a.heeded) {} (told c.shared.log) c.shared.progress ∧
      ∀ l c', a.Admits c l → x.system.step c l = some c' →
        ∃ ds, told c'.shared.log = told c.shared.log ++ ds ∧
          Progress.Runs (¬ a.heeded) c.shared.progress ds c'.shared.progress := by
  refine ⟨?_, fun l c' hl hs => ?_⟩
  · have haccepts : Progress.Accepts (¬ a.heeded) ([] ++ told c.shared.log) :=
      (observed_of_reach h).story.accepts
    exact haccepts.runs
  · obtain ⟨new, hnew, -⟩ := Setup.Reachable.handed_step h.any hs
    have htold : told c'.shared.log = told c.shared.log ++ new.map RelayEvent.data := by
      rw [told, hnew, List.map_append, told]
    have haccepts := (observed_of_reach (.step h hl hs)).story.accepts
    refine ⟨_, htold, ?_⟩
    rw [htold] at haccepts
    rw [Run.progress, Run.progress, htold]
    exact haccepts.runs

theorem protocol_refined_cancelledRun : ∃ c : State,
    Progress.Runs (¬ heeding.heeded) {} (told c.shared.log) c.shared.progress ∧
      c.shared.progress.main = .stopped ∧ c.shared.progress.finished.length = 2 := by
  obtain ⟨c, hc, h⟩ := exists_reach_letsThrough (x := liveSetup) cancelledRun
    (p := fun c => c.shared.progress.main = .stopped &&
      c.shared.progress.finished.length = 2) (by decide +kernel)
  obtain ⟨hmain, hlen⟩ := Bool.and_eq_true_iff.mp h
  exact ⟨c, (protocol_refined hc).1, of_decide_eq_true hmain, of_decide_eq_true hlen⟩

/-! ## One ending -/

/-- The end of a run is told once, and a completion told is a result returned. -/
structure OneEnding (s : Run) : Prop where
  last : ∀ before e after, handed s.log = before ++ e :: after → e.Terminal → after = []
  /-- The events marked as final are those that end the run. -/
  marked : ∀ e ∈ handed s.log, e.done = true ↔ e.Terminal
  returned : ∀ e ∈ handed s.log, ∀ m, e.data = .runCompleted m →
    ∀ err, s.outcome ≠ some (.error err)

/-- Nothing interrupts a run that has told its completion, and no callback keeps a follower from
its cancellation. -/
def uninterrupted : Premises := { careful := True, heeded := True }

/-- **A run has one ending.** When no deadline and no cancellation comes after a completion
was told, and no callback keeps a follower from its cancellation, nothing follows the event
that ends a run, and a run that told its completion does not fail. -/
theorem one_ending (h : x.system.Reach {} uninterrupted.Admits c) : OneEnding c.shared := by
  have hobs := observed_of_reach h
  have hends : ∀ before e after, handed c.shared.log = before ++ e :: after → e.Terminal →
      after = [] := by
    intro before e after hsplit ht
    have haccepts := hobs.story.accepts
    rw [told_append hsplit] at haccepts
    rcases haccepts.ends (not_not_intro trivial) ht with hnil | ⟨⟨m, hm⟩, -, hstop⟩
    · exact List.map_eq_nil_iff.mp hnil
    · rw [← told_append hsplit] at hstop
      have hmem : e ∈ handed c.shared.log := by simp [hsplit]
      exact absurd hm (hobs.closes.completes trivial hstop e hmem m)
  refine ⟨hends, fun e he => ?_, fun e he m hm err => ?_⟩
  · rw [hobs.story.flags e he]
    exact Iff.rfl
  · refine hobs.closes.returns trivial ?_ err
    rcases hobs.ended he (by rw [RelayEvent.Terminal, hm]; rfl) with hmain | hmain
    · exact hmain
    · exact absurd hm (hobs.closes.completes trivial hmain e he m)

/-- A step that interrupts nobody, and at which nobody's cancellation is caught. -/
def undisturbed (c : State) : Label Thread Choice Move → Bool
  | .resume _ .cancel | .move _ => false
  | .resume i _ => i ∉ c.shared.cancels

theorem Premises.admits_undisturbed {a : Premises} {c : State} {l : Label Thread Choice Move}
    (h : undisturbed c l = true) : a.Admits c l where
  resume i m op cont hl _ := by
    subst hl
    have hne : m ≠ .cancel := by
      rintro rfl
      cases h
    have hi : i ∉ c.shared.cancels := by
      cases m with
      | cancel => exact absurd rfl hne
      | _ => exact of_decide_eq_true h
    exact ⟨fun _ hm => absurd hm hne, fun _ hm => absurd hm hne, fun _ _ _ _ _ hmem =>
      absurd hmem hi⟩
  move _ v hl := by
    subst hl
    cases h

/-- A list of labels that interrupts nobody leads to a state reached under any premises. -/
theorem exists_reach_undisturbed (a : Premises) (ls : List (Label Thread Choice Move))
    {p : State → Bool}
    (h : (x.system.checkedSteps undisturbed (x.system.init {}) ls).any p = true) :
    ∃ c, x.system.Reach {} a.Admits c ∧ p c = true := by
  obtain ⟨c, hc, hp⟩ := Option.any_eq_true _ _ |>.mp h
  exact ⟨c, System.reach_of_checkedSteps (fun _ _ hl => Premises.admits_undisturbed hl) .init hc,
    hp⟩

/-- A plan of one task, carried out with every step told. -/
def toldRun : List (Label Thread Choice Move) :=
  toldPlan [taskRow "one" "local" []] ++
    [.resume (.job 0) .go, .resume (.job 0) .go, .resume (.job 0) .go,
      .resume (.job 0) (replyWith (workValue "4")), .resume (.job 0) .go, .resume (.job 0) .go] ++
    goOn 3 ++ .resume .main (replyWith (.str "done".toList)) :: goOn 2

theorem one_ending_toldRun : ∃ c : State, OneEnding c.shared ∧
    (∃ e ∈ handed c.shared.log, e.Terminal) ∧ ∃ r, c.shared.outcome = some (.ok r) := by
  obtain ⟨c, hc, h⟩ := exists_reach_undisturbed (x := liveSetup) uninterrupted toldRun
    (p := fun c => ((handed c.shared.log).any fun e => e.data.metrics?.isSome) &&
      c.shared.toLedger.returned fun _ => true) (by decide +kernel)
  obtain ⟨htold, hret⟩ := Bool.and_eq_true_iff.mp h
  obtain ⟨e, he, ht⟩ := List.any_eq_true.mp htold
  obtain ⟨r, hr, -⟩ := Ledger.exists_of_returned hret
  exact ⟨c, one_ending hc, ⟨e, he, ht⟩, r, hr⟩

/-! ## Announcements -/

/-- The metrics a run ends with list the tasks that were told to be completed. -/
def Announced (s : Run) : Prop :=
  ∀ before e after m, handed s.log = before ++ e :: after → e.data.metrics? = some m →
    ∀ id, id ∈ m.completedTasks ↔
      ∃ e' ∈ before, ∃ tier n j r, e'.data = .taskCompleted id tier n j r

/-- No worker is cancelled between accepting a result and announcing it. -/
def unhurried : Premises := { unhurt := True }

/-- **No accepted task goes unannounced.** When no worker is cancelled while it waits to
announce the result it accepted, the tasks listed at the end of a run with a plan are exactly
those an event before told to be completed. -/
theorem tasks_announced (h : x.system.Reach {} unhurried.Admits c)
    (hplan : c.shared.plan.isSome) : Announced c.shared := by
  have hobs := observed_of_reach h
  have hok := Setup.Reachable.ok h.any
  intro before e after m hsplit hm id
  have ht : e.Terminal := by rw [RelayEvent.Terminal, hm]; rfl
  have he : e ∈ handed c.shared.log := by simp [hsplit]
  have hkeys : m.completedTasks = c.shared.results.keys := by
    rw [hobs.closes.metrics e he m hm]
    rfl
  rw [hkeys]
  constructor
  · intro hid
    obtain ⟨job, hj, rfl⟩ := hok.plan.keys hplan id hid
    obtain ⟨n, hn⟩ := List.mem_iff_getElem?.mp hj
    have hemit : x.emit = true := by
      by_contra hne
      rw [hobs.story.silent (by simpa using hne)] at he
      cases he
    -- the run is over, so the job is, and it was not cancelled before it told its result
    have hover : job.outcome.isSome := by
      have hidle := (hobs.closes.atEnd (hobs.ended he ht)).idle n
      simpa [Ledger.running, hn, Option.isSome_iff_ne_none] using hidle
    obtain ⟨t, hdone⟩ := (hobs.works.jobs n job hn hover).unhurt trivial hemit hid
    obtain ⟨tier, k, j, r, htold⟩ := Progress.mem_of_done hdone
    obtain ⟨e', he', hdata⟩ := List.mem_map.mp htold
    refine ⟨e', ?_, tier, k, j, r, hdata⟩
    rw [hsplit] at he'
    rcases List.mem_append.mp he' with he' | he'
    · exact he'
    · exfalso
      have haccepts := hobs.story.accepts
      rw [told_append hsplit] at haccepts
      rcases List.mem_cons.mp he' with rfl | he'
      · simp [hdata, EventData.metrics?] at hm
      · rcases haccepts.after_end ht (List.mem_map_of_mem he') with hend | ⟨key, hteller⟩
        · simp [hdata, EventData.metrics?] at hend
        · simp [hdata, EventData.teller] at hteller
  · rintro ⟨e', he', tier, n, j, r, hdata⟩
    have htold : .taskCompleted id tier n j r ∈ told c.shared.log :=
      hdata ▸ List.mem_map_of_mem (by simp [hsplit, he'])
    obtain ⟨t, hdone⟩ := hobs.story.accepts.done_of_mem htold
    exact hobs.story.done id t hdone

theorem tasks_announced_toldRun : ∃ c : State, Announced c.shared ∧
    ∃ e ∈ handed c.shared.log, ∃ m, e.data.metrics? = some m ∧
      m.completedTasks = ["one".toList] := by
  obtain ⟨c, hc, h⟩ := exists_reach_undisturbed (x := liveSetup) unhurried toldRun
    (p := fun c => c.shared.plan.isSome && (handed c.shared.log).any fun e =>
      e.data.metrics?.any fun m => m.completedTasks = ["one".toList]) (by decide +kernel)
  obtain ⟨hplan, hlast⟩ := Bool.and_eq_true_iff.mp h
  obtain ⟨e, he, hm⟩ := List.any_eq_true.mp hlast
  obtain ⟨m, hm, hids⟩ := Option.any_eq_true _ _ |>.mp hm
  exact ⟨c, tasks_announced hc hplan, e, he, m, hm, of_decide_eq_true hids⟩

end HorizonRelay
