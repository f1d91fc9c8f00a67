import HorizonRelay.Engine.Request

/-!
# Soundness

Every task of a run keeps its contract, so the records of a run are `Ledger.Ok` in every
reachable state, under every behaviour of the provider, the progress callback, the clock
and the scheduler.

## Main results

* `contract_holds` — the obligations of the proof outline.
* `ok_of_reach` — the records of a reachable state.
* `guar_of_step` — what a step does to the records.
-/

namespace HorizonRelay

open Py Coop

variable {x : Setup} {permit : Permit}

/-! ## The threads -/

theorem wp_follow {k : ℕ} {s : Run} {Q : Except Exc Bool → Run → Prop}
    (hs : s.toLedger.Ok x permit) (hQ : ∀ r s', s'.toLedger.Ok x permit → Q r s') :
    (follow x k).wp (terms x permit (.follower k)) Q s := by
  unfold follow
  rw [Coro.wp_tryExcept, Coro.wp_bind]
  refine wp_ask hs fun s₁ m r s₂ _ hs₂ _ _ _ => ?_
  have hend : ∀ (e : Exc) (s' : Run), s'.toLedger.Ok x permit →
      Coro.wp (terms x permit (.follower k)) (if e.isException then .raise e else pure false)
        Q s' := by
    intro e s' hs'
    split <;> exact hQ _ s' hs'
  cases r with
  | error e => exact hend e s₂ hs₂
  | ok _ =>
      rw [Coro.outcome_ok, Coro.wp_bind, Coro.wp_read, Coro.outcome_ok]
      simp only
      split
      · exact hQ _ s₂ hs₂
      · rw [Coro.wp_bind]
        refine wp_update_of_eq rfl ?_
        rw [Coro.outcome_ok, Coro.wp_bind]
        unfold reportOutput
        rw [Coro.wp_bind, Coro.wp_read, Coro.outcome_ok]
        split
        · refine wp_event hs₂ fun r s₃ _ hs₃ _ => ?_
          cases r with
          | ok _ => exact hQ _ s₃ hs₃
          | error e => exact hend e s₃ hs₃
        · exact hQ _ _ hs₂

/-- What the end of a task leaves, if it changes nothing. -/
theorem post_of_eq {i : Thread} {r : Except Exc Result} {s : Run} (hs : s.toLedger.Ok x permit)
    (hf : (finish i r s).toLedger = s.toLedger) : (contract x permit).post i r s := by
  refine ⟨hs, ?_, ?_⟩
  · rw [hf]
    exact hs
  · rw [hf]
    exact .refl _ _

theorem post_follower {k : ℕ} {r : Except Exc Result} {s : Run}
    (hs : s.toLedger.Ok x permit) : (contract x permit).post (.follower k) r s := by
  refine post_of_eq hs ?_
  cases r with
  | error e => rfl
  | ok a => cases a <;> rfl

theorem wp_start_follower {k : ℕ} {s : Run} (hs : s.toLedger.Ok x permit) :
    (start x (.follower k)).wp (terms x permit (.follower k))
      ((contract x permit).post (.follower k)) s := by
  unfold start
  rw [Coro.wp_bind]
  refine wp_follow hs fun r s' hs' => ?_
  cases r <;> exact post_follower hs'

theorem wp_start_job {n : ℕ} {s : Run} (hs : s.toLedger.Ok x permit)
    (hm : s.toLedger.mine (.job n) = []) :
    (start x (.job n)).wp (terms x permit (.job n)) ((contract x permit).post (.job n)) s := by
  unfold start
  rw [Coro.wp_bind]
  refine wp_worker hs hm fun job r s' h => ?_
  have hpost : ∀ r : Except Exc Json, JobEnd x permit n job r s'.toLedger →
      s'.toLedger.Ok x permit ∧ (s'.endJob n r).toLedger.Ok x permit ∧
        Guar (.job n) s'.toLedger (s'.endJob n r).toLedger := by
    intro r h
    obtain ⟨hstep, hok⟩ := h.finish
    rw [endJob_toLedger s' r h.here]
    exact ⟨h.ok, hok, .inr hstep⟩
  cases r with
  | ok v => exact hpost _ h
  | error e => exact hpost _ h

theorem wp_start_main {s : Run} (hs : s.toLedger = {}) :
    (start x .main).wp (terms x permit .main) ((contract x permit).post .main) s := by
  unfold start
  rw [Coro.wp_bind]
  refine wp_run hs fun r s' h => ?_
  obtain ⟨hstep, hok⟩ := h.finish
  cases r with
  | ok v => exact ⟨h.ok, hok, hstep⟩
  | error e => exact ⟨h.ok, hok, hstep⟩

/-! ## The environment -/

theorem cancelMain_toLedger (s : Run) : s.cancelMain.toLedger = s.toLedger := by
  unfold Run.cancelMain
  split
  · split
    · exact cancelJobs_toLedger _ s
    · rfl
  · rfl

/-- The environment's own moves leave the records alone. -/
theorem move_toLedger {v : Move} {s s' : Run} (h : move x v s = some s') :
    s'.toLedger = s.toLedger := by
  cases v with
  | tick d =>
      simp only [move] at h
      split at h <;> cases h
      rfl
  | pace delay lag => cases h; rfl
  | deadline =>
      simp only [move] at h
      split at h <;> cases h
      exact cancelMain_toLedger s
  | cancelRun =>
      simp only [move] at h
      split at h
      · cases h
      · split at h <;> cases h
        · rfl
        · exact cancelMain_toLedger s
  | delta k text =>
      simp only [move] at h
      split at h
      · split at h <;> cases h
        split <;> rfl
      · cases h

/-! ## Soundness -/

/-- **The tasks of a run keep their contract.** -/
theorem contract_holds (x : Setup) (permit : Permit) :
    (contract x permit).Holds x.system {} (Admits permit) where
  rely_refl _ _ := .refl _ _
  rely_trans _ := .trans
  guar_refl _ _ := .refl _ _
  guar_trans _ := .trans
  start_await i := by cases i <;> exact ⟨_, _, rfl⟩
  init_inv := Ledger.ok_empty x permit
  start_wp i _ := by
    cases i with
    | main => exact wp_start_main rfl
    | job n => exact wp_start_job (Ledger.ok_empty x permit) rfl
    | follower k => exact wp_start_follower (Ledger.ok_empty x permit)
  known _ _ _ := trivial
  allow c i m op k hok hp := hok i m op k rfl hp
  finish i r s _ hpost := ⟨hpost.2.1, hpost.2.2⟩
  again i a s _ hpost hag := by
    cases i with
    | follower k => exact wp_start_follower hpost.1
    | main => cases a <;> cases hag
    | job n => cases a <;> cases hag
  others c l c' _ _ hs hl hi := by
    cases l with
    | resume i m => exact absurd trivial (hl i m rfl)
    | move v =>
        obtain ⟨s', hmove, rfl⟩ := System.step_move hs
        change s'.toLedger.Ok x permit
        rw [move_toLedger hmove]
        exact hi
  rely_step c l c' _ _ hs hi hg j hj _ := by
    cases l with
    | move v =>
        obtain ⟨s', hmove, rfl⟩ := System.step_move hs
        change Rely j c.shared.toLedger s'.toLedger
        rw [move_toLedger hmove]
        exact .refl _ _
    | resume i m =>
        have hne : j ≠ i := fun h => hj m (h ▸ rfl)
        exact Guar.rely (hg i m rfl trivial) hne hi.plan.ids

/-- **The records of a reachable state are fine.** -/
theorem ok_of_reach {c : State} (h : x.system.Reach {} (Admits permit) c) :
    c.shared.toLedger.Ok x permit :=
  (contract_holds x permit).always h

/-- Every behaviour is admitted when every end of a call is. -/
theorem Setup.Reachable.admitted {c : State} (h : x.Reachable c) :
    x.system.Reach {} (Admits anyEnd) c :=
  h.mono fun c l _ => admits_anyEnd c l

theorem Setup.Reachable.ok {c : State} (h : x.Reachable c) : c.shared.toLedger.Ok x anyEnd :=
  ok_of_reach h.admitted

/-- What a step of a reachable state does to the records: one task does what it guarantees,
or nothing happens to them. -/
theorem Setup.Reachable.guar {c c' : State} {l : Label Thread Choice Move}
    (h : x.Reachable c) (hs : x.system.step c l = some c') :
    ∃ i, Guar i c.shared.toLedger c'.shared.toLedger := by
  cases l with
  | resume i m =>
      exact ⟨i, (contract_holds x anyEnd).guarantees h.admitted (admits_anyEnd c _) trivial hs⟩
  | move v =>
      obtain ⟨s', hmove, rfl⟩ := System.step_move hs
      refine ⟨.main, ?_⟩
      rw [move_toLedger hmove]
      exact .refl _ _

theorem Guar.grows {i : Thread} {l l' : Ledger} (h : Guar i l l') : Grows l.results l'.results := by
  cases i with
  | main => exact MainStep.grows h
  | job n =>
      rcases h with rfl | h
      · exact .refl _
      · exact h.grows
  | follower k =>
      obtain rfl : l' = l := h
      exact .refl _

/-! ## A run to look at -/

/-- Whether the call waited for, if any, ends in a permitted way. -/
def admits (permit : Tier → Payload → Except Exc Json → Bool) (c : State) :
    Label Thread Choice Move → Bool
  | .resume i m =>
      match c.pool i with
      | .await (.complete k) _ =>
          (c.shared.calls[k]?).all fun d =>
            permit d.record.tier d.payload (endOf d.payload.operation k m)
      | _ => true
  | .move _ => true

/-- A list of labels that runs in permitted ways to a state with a property shows that one
can be reached in permitted ways. -/
theorem exists_reach_of_admitted (permit : Permit) [∀ t p r, Decidable (permit t p r)]
    (ls : List (Label Thread Choice Move)) {p : State → Bool}
    (h : (x.system.checkedSteps (admits fun t p r => permit t p r) (x.system.init {}) ls).any p
      = true) : ∃ c, x.system.Reach {} (Admits permit) c ∧ p c = true := by
  obtain ⟨c, hc, hp⟩ := Option.any_eq_true _ _ |>.mp h
  refine ⟨c, System.reach_of_checkedSteps (fun c l hl => ?_) .init hc, hp⟩
  rintro i m op cont rfl hpool k d rfl hd
  simpa [admits, hpool, hd] using hl

/-- A planner's row: a free-form task that reads the source `a` and what it depends on. -/
def taskRow (id tier : String) (deps : List String) : Json :=
  .obj [("id".toList, .str id.toList), ("instruction".toList, .str "Do it".toList),
    ("preferred_tier".toList, .str tier.toList),
    ("input_refs".toList,
      .arr (.str "sources.a".toList :: deps.map fun d => .str ("results.".toList ++ d.toList))),
    ("depends_on".toList, .arr (deps.map fun d => .str d.toList)),
    ("result_type".toList, .str ResultType.taskAnswer.name),
    ("checks".toList, .arr (ResultType.taskAnswer.checks.map Json.str))]

/-- A planner's reply. -/
def planReply (rows : List Json) : Json :=
  .obj [("version".toList, .int 1), ("tasks".toList, .arr rows),
    ("final_instruction".toList, .str "Join them".toList)]

/-- The provider replies with a value. -/
def replyWith (v : Json) : Choice := .reply (some { value := v, model := "m".toList })

/-- A worker's value. -/
def workValue (answer : String) : Json := .obj [("answer".toList, .str answer.toList)]

/-- A request that goes to plan mode unless a local model is trusted. -/
def planSetup : Setup where
  lib := asciiLib
  goal := "hi".toList
  sources := Dict.ofList [("a".toList, "text".toList)]
  policy := { cloudMode := .plan, localSamples := 1 }

/-- The local model fails, and the cloud plans the given rows. -/
def planned (rows : List Json) : List (Label Thread Choice Move) :=
  [.resume .main .go, .resume .main (.raise (relayError [])),
    .resume .main (replyWith (planReply rows))]

/-- A plan of one task for the local model and one for the cloud that depends on it, carried
out; the local model's first value fails its check. -/
def planRun : List (Label Thread Choice Move) :=
  planned [taskRow "one" "local" [], taskRow "two" "cloud" ["one"]] ++
    [.resume (.job 0) .go, .resume (.job 0) .go, .resume (.job 0) (replyWith .null),
      .resume (.job 0) .go, .resume (.job 0) (replyWith (workValue "4")),
      .resume .main .go, .resume .main .go, .resume (.job 1) .go,
      .resume (.job 1) (replyWith (workValue "5")), .resume .main .go, .resume .main .go,
      .resume .main (replyWith (.str "done".toList))]

/-- Whether a run has returned a result with a property. -/
def Ledger.returned (l : Ledger) (q : RunResult → Bool) : Bool :=
  match l.outcome with
  | some (.ok r) => q r
  | _ => false

theorem Ledger.exists_of_returned {l : Ledger} {q : RunResult → Bool} (h : l.returned q = true) :
    ∃ r, l.outcome = some (.ok r) ∧ q r = true := by
  unfold Ledger.returned at h
  split at h
  · rename_i r hr
    exact ⟨r, hr, h⟩
  · cases h

/-- Whether a run has ended with an error with a property. -/
def Ledger.failed (l : Ledger) (q : Exc → Bool) : Bool :=
  match l.outcome with
  | some (.error e) => q e
  | _ => false

theorem Ledger.exists_of_failed {l : Ledger} {q : Exc → Bool} (h : l.failed q = true) :
    ∃ e, l.outcome = some (.error e) ∧ q e = true := by
  unfold Ledger.failed at h
  split at h
  · rename_i e he
    exact ⟨e, he, h⟩
  · cases h

/-- Whether a call has ended with an error with a property. -/
def Call.failedWith (c : Call) (q : Exc → Bool) : Bool :=
  match c.ended with
  | some (.error e) => q e
  | _ => false

theorem Call.exists_of_failedWith {c : Call} {q : Exc → Bool} (h : c.failedWith q = true) :
    ∃ e, c.ended = some (.error e) ∧ q e = true := by
  unfold Call.failedWith at h
  split at h
  · rename_i e he
    exact ⟨e, he, h⟩
  · cases h

example : (planSetup.system.steps (planSetup.system.init {}) planRun).map
    (fun c => (c.shared.results.keys, c.shared.calls.map fun d => d.record.tier)) =
      some (["one".toList, "two".toList], [.small, .cloud, .small, .small, .cloud, .cloud]) := by
  decide +kernel

end HorizonRelay
