import HorizonRelay.Lib.Upkeep
import HorizonRelay.Runs.Events

/-!
# What the code of a run writes

Most facts about a run are about its calls, its verdicts and what was told of it.  Such a fact is
durable when the few kinds of writes that touch these keep it; then all code of a run upholds it,
the routing cascade perhaps apart, which is the only code that judges.

## Main definitions

* `Durable` — a fact that the writes of a run keep.

## Main results

* `upholds_callWithRecord`, `upholds_worker`, `upholds_follow` — calls, workers and followers.
* `upholds_run` — the main flow, if the cascade upholds the fact.
-/

namespace HorizonRelay

open Py Coop

/-- An event whose details anybody may tell: it shows no record and no verdict, and an escalation
says who answers. -/
def EventData.Ordinary : EventData → Prop
  | .callFinished _ | .callOutput .. | .localVerdict .. => False
  | .escalated _ mode .. => mode ≠ .auto
  | _ => True

/-- Nobody changed what durable facts are about. -/
structure Run.Alike (s s' : Run) : Prop where
  calls : s'.calls = s.calls
  verdicts : s'.verdicts = s.verdicts
  skipped : s'.skipped = s.skipped
  told : told s'.log = told s.log

/-- A fact that the writes of a run keep, those of verdicts perhaps apart. -/
structure Durable (I : Run → Prop) : Prop where
  congr : ∀ {s s' : Run}, s.Alike s' → I s → I s'
  addCall : ∀ {s : Run} (i : Thread) (tier : Tier) (p : Payload), I s → I (s.addCall i tier p)
  /-- The fields that name a call stay. -/
  setCall : ∀ {s : Run} {k : ℕ} {f : Call → Call},
    (∀ c : Call, (f c).payload = c.payload ∧ (f c).record.operation = c.record.operation ∧
      (f c).record.taskId = c.record.taskId ∧ (f c).record.attempt = c.record.attempt ∧
        (f c).record.forTier = c.record.forTier) → I s → I (s.setCall k f)
  hand : ∀ {s : Run} {e : RelayEvent}, e.data.Ordinary → I s → I (s.see (.handed e))
  /-- Records are shown as they were at some time. -/
  report : ∀ {s s' : Run} {k : ℕ} {r : CallRecord} {e : RelayEvent}, I s →
    s.recordAt k = some r →
    (e.data = .callFinished r ∨ ∃ text n, e.data = .callOutput r text n) → I s' →
    I (s'.see (.handed e))

variable {x : Setup} {I : Run → Prop} {s s' : Run} {i : Thread} {k : ℕ}

/-- An entry that hands out no event. -/
theorem alike_see (s : Run) {e : Entry} (he : e.event? = none) : s.Alike (s.see e) := by
  refine ⟨rfl, rfl, rfl, ?_⟩
  simp [told, handed, Run.see, List.filterMap_append, he]

theorem told_addCall (s : Run) (i : Thread) (tier : Tier) (p : Payload) :
    told (s.addCall i tier p).log = told s.log :=
  (alike_see s (e := .requested s.calls.length) rfl).told

/-! ## Events and calls -/

theorem upholds_update (H : Durable I) {f : Run → Run} (hf : ∀ s : Run, s.Alike (f s)) :
    (Coro.update f : Prog Unit).Upholds I :=
  .update fun s h => H.congr (hf s) h

/-- Telling an event that the fact bears. -/
theorem upholds_tell (H : Durable I) (me : Thread) {d : EventData} (done : Bool)
    (hd : ∀ {s : Run} {e : RelayEvent}, e.data = d → I s → I (s.see (.handed e))) :
    (event x me d done).Upholds I := by
  refine .bind (upholds_update H fun _ => ⟨rfl, rfl, rfl, rfl⟩) fun _ => .ite ?_ (.pure ())
  refine .reading fun s _ => .bind ?_ fun _ => ?_
  · refine .reading fun s _ => .ite (upholds_update H fun _ => ⟨rfl, rfl, rfl, rfl⟩) ?_
    exact .bind (upholds_update H fun _ => ⟨rfl, rfl, rfl, rfl⟩) fun _ => .request _
  · refine .tryFinally (.tryExcept ?_ fun e => .ite (.pure ()) (.raise e))
      (upholds_update H fun _ => ⟨rfl, rfl, rfl, rfl⟩)
    exact .bind (.update fun s h => hd rfl h) fun _ => .request _

theorem upholds_event (H : Durable I) (me : Thread) {d : EventData} (done : Bool)
    (hd : d.Ordinary) : (event x me d done).Upholds I :=
  upholds_tell H me done fun he h => H.hand (he ▸ hd) h

theorem upholds_spend (H : Durable I) (tier : Tier) (op : Operation) :
    (spend x tier op).Upholds I := by
  refine .reading fun s _ => .ite ?_ (.pure ())
  exact .bind (upholds_update H fun _ => ⟨rfl, rfl, rfl, rfl⟩) fun _ => .ofExcept _

theorem upholds_unwatch (H : Durable I) (k : ℕ) : (unwatch k).Upholds I :=
  .reading fun _ _ => .ite (upholds_update H fun _ => ⟨rfl, rfl, rfl, rfl⟩) (.pure ())

theorem upholds_reportCall (H : Durable I) (me : Thread) (k : ℕ) :
    (reportCall x me k).Upholds I := by
  refine .reading fun s hs => ?_
  split
  · rename_i r hr
    exact upholds_tell H me _ fun he h => H.report hs hr (.inl he) h
  · exact .pure ()

theorem upholds_endCall (H : Durable I) (k : ℕ) (r : Except Exc Json)
    {f : CallRecord → CallRecord}
    (hf : ∀ c : CallRecord, (f c).operation = c.operation ∧ (f c).taskId = c.taskId ∧
      (f c).attempt = c.attempt ∧ (f c).forTier = c.forTier) :
    (Coro.update (Run.endCall k r f) : Prog Unit).Upholds I := by
  exact .update fun s h => H.setCall (fun c => ⟨rfl, hf c.record⟩) h

theorem upholds_complete (H : Durable I) (k : ℕ) (op : Operation) :
    (complete x k op).Upholds I := by
  refine .bind (.ite (upholds_update H fun _ => ⟨rfl, rfl, rfl, rfl⟩) (.pure ())) fun _ =>
    .bind (.request _) fun r => ?_
  cases r with
  | none => exact .raise _
  | some r =>
      exact .ite (.raise _) (.bind
        (upholds_endCall H k _ fun c => ⟨rfl, rfl, rfl, rfl⟩) fun _ => .pure _)

theorem upholds_callFailed (H : Durable I) (me : Thread) (k : ℕ) (e : Exc) :
    (callFailed x me k e).Upholds I := by
  refine .reading fun s _ => .ite ?_ ?_
  · exact .bind (upholds_endCall H k _ fun c => ⟨rfl, rfl, rfl, rfl⟩) fun _ =>
      .bind (upholds_reportCall H me k) fun _ => .raise e
  · exact .bind (upholds_endCall H k _ fun c => ⟨rfl, rfl, rfl, rfl⟩) fun _ => .raise e

/-- **A model call keeps the records.** -/
theorem upholds_callWithRecord (H : Durable I) (me : Thread) (tier : Tier) (p : Payload) :
    (callWithRecord x me tier p).Upholds I := by
  refine .bind (upholds_spend H tier p.operation) fun _ => .reading fun s _ =>
    .bind (.update fun s h => H.addCall me tier p h) fun _ => .bind ?_ fun v => ?_
  · exact .tryFinally (.tryExcept (upholds_complete H _ _) fun e => upholds_callFailed H me _ e)
      (upholds_unwatch H _)
  · exact .bind (.update fun s h => H.setCall (fun c => ⟨rfl, rfl, rfl, rfl, rfl⟩) h) fun _ =>
      .bind (upholds_reportCall H me _) fun _ => .reading fun _ _ => .pure _

theorem upholds_call (H : Durable I) (me : Thread) (tier : Tier) (p : Payload) :
    (call x me tier p).Upholds I :=
  .bind (upholds_callWithRecord H me tier p) fun _ => .pure _

/-! ## The main flow -/

theorem upholds_tryExtract (H : Durable I) : (tryExtract x).Upholds I := by
  refine .bind (upholds_event H _ _ trivial) fun _ => .bind (upholds_call H _ _ _) fun v => ?_
  split
  · exact .bind (upholds_event H _ _ trivial) fun _ => .pure _
  · exact .bind (upholds_update H fun _ => ⟨rfl, rfl, rfl, rfl⟩) fun _ =>
      .bind (upholds_event H _ _ trivial) fun _ => .pure _

theorem upholds_exceptRelay {α : Type} {c : Prog α} {h : Exc → Prog α} (hc : c.Upholds I)
    (hh : ∀ e, (h e).Upholds I) : (exceptRelay c h).Upholds I :=
  .tryExcept hc fun e => .ite (hh e) (.raise e)

theorem upholds_sample (H : Durable I) (tier : Tier) (n : ℕ) : (sample x tier n).Upholds I := by
  refine .bind (upholds_exceptRelay ?_ fun e => .pure _) fun r => ?_
  · exact .bind (upholds_callWithRecord H _ _ _) fun r => .pure _
  · exact .bind (.ofExcept _) fun a => .bind (upholds_event H _ _ trivial) fun _ => .pure _

theorem upholds_samplesFrom (H : Durable I) (tier : Tier) (n m : ℕ) :
    (samplesFrom x tier n m).Upholds I := by
  induction n generalizing m with
  | zero => exact .pure _
  | succ n ih =>
      exact .bind (upholds_sample H tier m) fun a =>
        .ite (.pure _) (.bind (ih (m + 1)) fun _ => .pure _)

theorem upholds_critiqueOf (H : Durable I) (tier : Tier) (samples : List Assessment) :
    (critiqueOf x tier samples).Upholds I := by
  refine .ite (.pure _) (.ite (.pure _) (.bind (upholds_event H _ _ trivial) fun _ => ?_))
  refine upholds_exceptRelay ?_ fun e => .pure _
  exact .bind (upholds_call H _ _ _) fun v => .bind (.ofExcept _) fun c => .pure _

theorem upholds_planFrom (H : Durable I) (context : List LocalAttempt) (n m : ℕ)
    (error : Option Str) : (planFrom x context n m error).Upholds I := by
  induction n generalizing m error with
  | zero => exact .raise _
  | succ n ih =>
      refine .bind (upholds_call H _ _ _) fun raw => ?_
      split
      · exact .bind (upholds_update H fun _ => ⟨rfl, rfl, rfl, rfl⟩) fun _ =>
          .bind (upholds_event H _ _ trivial) fun _ => .pure _
      · exact .ite (.bind (upholds_event H _ _ trivial) fun _ => ih _ _) (.raise _)

/-! ## The workers -/

theorem upholds_perform (H : Durable I) (n : ℕ) (task : Task) (inputs : Inputs) (tier : Tier)
    (attempt : ℕ) (errors : List Str) :
    (perform x n task inputs tier attempt errors).Upholds I := by
  have hbody : Coro.Upholds I (do
      event x (.job n) (.taskStarted task.id tier attempt (x.model? tier))
      callWithRecord x (.job n) tier (.work task inputs x.goal attempt errors)) :=
    .bind (upholds_event H _ _ trivial) fun _ => upholds_callWithRecord H _ _ _
  refine .ite hbody (.bind (.request _) fun _ => .tryFinally hbody ?_)
  exact upholds_update H fun _ => ⟨rfl, rfl, rfl, rfl⟩

theorem upholds_ladder (H : Durable I) (n : ℕ) (task : Task) (inputs : Inputs) (tiers : List Tier)
    (attempt : ℕ) (previous : Tier) (errors : List Str) :
    (ladder x n task inputs tiers attempt previous errors).Upholds I := by
  induction tiers generalizing attempt previous errors with
  | nil => exact .raise _
  | cons tier tiers ih =>
      refine .bind (.ite (upholds_event H _ _ trivial) (.pure ())) fun _ =>
        .bind (.attempt (upholds_perform H n task inputs tier attempt errors)) ?_
      rintro (e | ⟨v, record⟩)
      · exact .ite (.raise e)
          (.ite (.bind (upholds_event H _ _ trivial) fun _ => ih _ _ _) (.raise e))
      · simp only
        split
        · exact .ite (.bind (upholds_event H _ _ trivial) fun _ => ih _ _ _) (.raise _)
        · exact .bind (upholds_update H fun _ => ⟨rfl, rfl, rfl, rfl⟩) fun _ =>
            .bind (upholds_event H _ _ trivial) fun _ => .pure _

theorem upholds_setResults (H : Durable I) (entries : List (Task × Json)) :
    (Coro.update (Run.setResults entries) : Prog Unit).Upholds I := by
  have hsame : ∀ s : Run, s.Alike (Run.setResults entries s) := by
    induction entries with
    | nil => exact fun s => ⟨rfl, rfl, rfl, rfl⟩
    | cons e entries ih =>
        intro s
        have h := ih (s.setResult e.1.id e.2)
        exact ⟨h.calls, h.verdicts, h.skipped, h.told⟩
  exact upholds_update H hsame

theorem cancelJobs_log (js : List ℕ) (s : Run) : (Run.cancelJobs js s).log = s.log := by
  unfold Run.cancelJobs
  generalize js.filter s.toLedger.running = ns
  induction ns generalizing s with
  | nil => rfl
  | cons n ns ih => exact ih (s.cancel (.job n))

theorem alike_cancelJobs (js : List ℕ) (s : Run) : s.Alike (Run.cancelJobs js s) := by
  have h := cancelJobs_toLedger js s
  refine ⟨congrArg Ledger.calls h, congrArg Ledger.verdicts h, congrArg Ledger.skipped h, ?_⟩
  rw [cancelJobs_log]

theorem upholds_batch (H : Durable I) (ready : List Task) : (batch ready).Upholds I := by
  have hwait : ∀ (op : Op) js, Coro.Upholds I (do
      Coro.update fun s : Run => { s with gathering := some js, gatherCancelled := false }
      ask op) := fun op js =>
    .bind (upholds_update H fun _ => ⟨rfl, rfl, rfl, rfl⟩) fun _ => .request _
  refine .reading fun s _ => .bind (upholds_update H fun _ => ⟨rfl, rfl, rfl, rfl⟩) fun _ =>
    .tryFinally (.bind (hwait _ _) fun _ => upholds_setResults H _)
      (.bind ?_ fun _ => hwait _ _)
  exact upholds_update H (alike_cancelJobs _)

theorem upholds_runBatches (H : Durable I) (turns : ℕ) (pending : List Task)
    (h : pending.length ≤ turns) : (runBatches turns pending h).Upholds I := by
  induction turns generalizing pending with
  | zero =>
      cases pending with
      | nil => exact .pure ()
      | cons t pending => cases h
  | succ turns ih =>
      cases pending with
      | nil => exact .pure ()
      | cons t pending =>
          refine .reading fun s _ => ?_
          split
          · exact .raise _
          · exact .bind (upholds_batch H _) fun _ => ih _ _

/-! ## One request -/

theorem upholds_finalAnswer (v : Json) (refusal : String) :
    (finalAnswer x v refusal).Upholds I := by
  unfold finalAnswer
  split
  · exact .ite (.raise _) (.pure _)
  · exact .raise _

theorem upholds_escalate (H : Durable I) : (escalate x).Upholds I := by
  refine .bind (upholds_update H fun _ => ⟨rfl, rfl, rfl, rfl⟩) fun _ => .reading fun s _ =>
    .bind (upholds_event H _ _ ?_) fun _ => .ite ?_ ?_
  · simp only [EventData.Ordinary]
    split <;> simp
  · exact .bind (upholds_planFrom H _ _ _ _) fun _ => .bind (upholds_runBatches H _ _ _) fun _ =>
      .bind (upholds_event H _ _ trivial) fun _ => .reading fun _ _ =>
        .bind (upholds_call H _ _ _) fun _ => upholds_finalAnswer _ _
  · exact .bind (upholds_event H _ _ trivial) fun _ => .bind (upholds_call H _ _ _) fun _ =>
      upholds_finalAnswer _ _

theorem upholds_route (H : Durable I) (hc : (cascade x (localTiers x.tiers)).Upholds I) :
    (route x).Upholds I := by
  refine .bind hc ?_
  rintro (_ | content)
  · exact upholds_escalate H
  · exact .pure _

theorem upholds_execute (H : Durable I) (hc : (cascade x (localTiers x.tiers)).Upholds I) :
    (execute x).Upholds I := by
  refine .ite (.bind (upholds_tryExtract H) ?_) (upholds_route H hc)
  rintro (_ | answer)
  · exact upholds_route H hc
  · exact .bind (upholds_update H fun _ => ⟨rfl, rfl, rfl, rfl⟩) fun _ => .pure _

theorem upholds_answerRequest (H : Durable I) (hc : (cascade x (localTiers x.tiers)).Upholds I) :
    (answerRequest x).Upholds I := by
  refine .bind (.ite ?_ (.pure _)) fun found => .bind (upholds_event H _ _ trivial) fun _ =>
    .bind (.ite (upholds_event H _ _ trivial) (.pure _)) fun _ =>
      .bind (upholds_execute H hc) fun content => ?_
  · exact .tryExcept (.request _) fun e => .ite (.pure _) (.raise e)
  · exact .reading fun _ _ => .bind (upholds_event H _ _ trivial) fun _ =>
      .reading fun _ _ => .pure _

/-- The handlers of a run. -/
theorem upholds_runFailed (H : Durable I) (e : Exc) : (runFailed x e).Upholds I := by
  refine .reading fun s _ => .ite ?_ (.ite ?_ ?_)
  · exact .bind (upholds_update H fun _ => ⟨rfl, rfl, rfl, rfl⟩) fun _ =>
      .bind (upholds_event H _ _ trivial) fun _ => .raise _
  · exact .bind (upholds_event H _ _ trivial) fun _ => .raise _
  · exact .bind (upholds_event H _ _ trivial) fun _ => .ite (.raise _) (.raise _)

theorem upholds_run (H : Durable I) (hc : (cascade x (localTiers x.tiers)).Upholds I) :
    (run x).Upholds I := by
  refine .bind (.request _) fun _ => .ite (.raise _) (.ite (.raise _)
    (.tryExcept ?_ (upholds_runFailed H)))
  refine .bind (upholds_update H fun _ => ⟨rfl, rfl, rfl, rfl⟩) fun _ =>
    .bind (.attempt (upholds_answerRequest H hc)) fun r => .reading fun s _ =>
      .bind (upholds_update H fun _ => ⟨rfl, rfl, rfl, rfl⟩) fun _ => ?_
  rcases r with e | a
  · exact .ite (.raise _) (.raise _)
  · exact .pure _

theorem upholds_worker (H : Durable I) (n : ℕ) : (worker x n).Upholds I :=
  .bind (.request _) fun task => .reading fun _ _ => .bind (.ofExcept _) fun inputs =>
    upholds_ladder H n task inputs _ _ _ _

theorem upholds_reportOutput (H : Durable I) (k : ℕ) (text : Str) :
    (reportOutput x k text).Upholds I := by
  refine .reading fun s hs => ?_
  split
  · rename_i r hr
    exact upholds_tell H _ _ fun he h => H.report hs hr (.inr ⟨_, _, he⟩) h
  · exact .pure ()

theorem upholds_follow (H : Durable I) (k : ℕ) : (follow x k).Upholds I := by
  refine .tryExcept (.bind (.request _) fun _ => .reading fun s _ => ?_)
    fun e => .ite (.raise e) (.pure _)
  exact .ite (.pure _) (.bind (upholds_update H fun _ => ⟨rfl, rfl, rfl, rfl⟩) fun _ =>
    .bind (upholds_reportOutput H _ _) fun _ => .pure _)

/-! ## Answers, moves and ends -/

theorem leave_handed (i : Thread) (op : Op) (s : Run) :
    handed (leave i op s).log = handed s.log := by
  cases op with
  | emit e => exact handed_concat_emitted _ _
  | _ => rfl

theorem answerOp_handed {op : Op} {m : Choice} {r : Except Exc (Ans op)}
    (h : answerOp x i op s m = some (r, s')) : handed s'.log = handed s.log := by
  cases op with
  | begin => cases (ordinary_eq_some h).2; rfl
  | start n =>
      replace h := (ordinary_eq_some h).2
      split at h
      · obtain ⟨job, -, h⟩ := Option.map_eq_some_iff.mp h
        cases h
        rfl
      · cases h
  | locations => rw [(answerLocations_cases h).1]; rfl
  | lock | slot | sleep k =>
      replace h := (ordinary_eq_some h).2
      split at h <;> cases h
      rfl
  | emit e =>
      rw [(answerEmit_cases h).1]
      exact handed_concat_emitted _ _
  | complete k =>
      cases m <;> simp only [answerOp, answerComplete] at h <;> (try split at h) <;> cases h <;>
        rfl
  | gather js => rw [(answerGather_cases (ordinary_eq_some h).2).1]; rfl
  | join js => rw [(answerJoin_cases (ordinary_eq_some h).2).1]; rfl

/-- Answers hand out no events. -/
theorem answer_handed {op : Op} {m : Choice} {r : Except Exc (Ans op)}
    (h : answer x i op s m = some (r, s')) : handed s'.log = handed s.log := by
  rcases answer_cases h with ⟨-, -, -, -, rfl⟩ | ⟨-, -, h⟩
  · exact leave_handed i op s
  · exact answerOp_handed h

theorem alike_answer {op : Op} {m : Choice} {r : Except Exc (Ans op)}
    (h : answer x i op s m = some (r, s')) : s.Alike s' := by
  have hl := answer_toLedger h
  refine ⟨congrArg Ledger.calls hl, congrArg Ledger.verdicts hl, congrArg Ledger.skipped hl, ?_⟩
  rw [told, answer_handed h, told]

theorem alike_finish (i : Thread) (r : Except Exc Result) (s : Run) : s.Alike (finish i r s) := by
  unfold finish
  split <;> exact ⟨rfl, rfl, rfl, rfl⟩

theorem alike_move {v : Move} (h : move x v s = some s') : s.Alike s' := by
  have hl := move_toLedger h
  refine ⟨congrArg Ledger.calls hl, congrArg Ledger.verdicts hl, congrArg Ledger.skipped hl, ?_⟩
  rw [told, handed_move h, told]

end HorizonRelay
