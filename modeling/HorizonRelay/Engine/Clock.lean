import HorizonRelay.Engine.Sound
import HorizonRelay.Lib.Turns

/-!
# The clock and the records of calls

When a turn of a task begins a call, the call's record has a time of that turn; when it
ends one, the record has the time since the call began.  A turn takes time only where it
begins a call, and a call is ended, before that, by the task that waits for it.

## Main definitions

* `Call.BegunIn`, `Call.EndedAt` — what a record says about the clock.
* `Clocked`, `Pending` — what a turn does to the calls, and that a call is still waited for.
* `clockTerms` — the terms every task of a run keeps.

## Main results

* `Setup.Reachable.clocked` — every step of a run is clocked.
-/

namespace HorizonRelay

open Py Coop

/-- A call that began between two times, and has not ended. -/
structure Call.BegunIn (t t' : ℚ) (c : Call) : Prop where
  low : t ≤ c.opened
  high : c.begun ≤ t'
  started : c.record.startedMs = roundHalfEven (c.opened * 1000)
  running : c.ended = none
  elapsed : c.record.elapsedMs = 0

/-- A call and what it is when it has ended, up to the time it took. -/
structure Call.Ends (c c' : Call) : Prop where
  running : c.ended = none
  ended : c'.ended.isSome = true
  thread : c'.thread = c.thread
  opened : c'.opened = c.opened
  begun : c'.begun = c.begun
  started : c'.record.startedMs = c.record.startedMs
  operation : c'.record.operation = c.record.operation
  taskId : c'.record.taskId = c.record.taskId
  tier : c'.record.tier = c.record.tier

/-- A call and what it is when it has ended at a time. -/
structure Call.EndedAt (t : ℚ) (c c' : Call) : Prop extends c.Ends c' where
  elapsed : c'.record.elapsedMs = roundHalfEven ((t - c.begun) * 1000)

/-- From the beginning of a turn of task `i` to now: calls of the task ended before any time
passed, and calls began, one after the other. -/
structure Clocked (i : Thread) (a b : Run) : Prop where
  now : a.now ≤ b.now
  old : ∀ (k : ℕ) (c : Call), a.calls[k]? = some c →
    ∃ c', b.calls[k]? = some c' ∧ (c' = c ∨ c.thread = i ∧ c.EndedAt a.now c')
  new : ∀ (k : ℕ) (c' : Call), a.calls.length ≤ k → b.calls[k]? = some c' →
    c'.BegunIn a.now b.now
  sorted : ∀ (j k : ℕ) (c d : Call), a.calls.length ≤ j → j < k → b.calls[j]? = some c →
    b.calls[k]? = some d → c.opened ≤ d.opened

/-- Call `k` is one of task `i` and has not ended. -/
def Pending (i : Thread) (k : ℕ) (s : Run) : Prop :=
  ∃ c, s.calls[k]? = some c ∧ c.thread = i ∧ c.ended = none

/-- A task that waits for the provider waits for a call of its own. -/
def Waits (i : Thread) : Op → Run → Prop
  | .complete k, s => Pending i k s
  | _, _ => True

/-- The terms of task `i`. -/
def clockTerms (i : Thread) : TurnTerms Op Run where
  did := Clocked i
  waits := Waits i

/-- The code of a task keeps its terms. -/
abbrev InTime {α : Type} (i : Thread) (c : Prog α) : Prop := c.Keeps (clockTerms i)

variable {x : Setup} {i j : Thread} {a b s s' : Run} {k : ℕ}

theorem Clocked.refl (i : Thread) (s : Run) : Clocked i s s where
  now := le_rfl
  old _ c h := ⟨c, h, .inl rfl⟩
  new k c hk h := by
    rw [List.getElem?_eq_none hk] at h
    cases h
  sorted j k c d hj _ h _ := by
    rw [List.getElem?_eq_none hj] at h
    cases h

/-- What leaves the calls and the clock alone. -/
theorem Clocked.congr (h : Clocked i a s) (hc : s'.calls = s.calls) (hn : s'.now = s.now) :
    Clocked i a s' where
  now := hn ▸ h.now
  old := hc ▸ h.old
  new := hn ▸ hc ▸ h.new
  sorted := hc ▸ h.sorted

theorem Clocked.length_le (h : Clocked i a b) : a.calls.length ≤ b.calls.length := by
  by_contra hlt
  obtain ⟨c', hc', -⟩ := h.old b.calls.length a.calls[b.calls.length]
    (List.getElem?_eq_getElem (by omega))
  rw [List.getElem?_eq_none le_rfl] at hc'
  cases hc'

/-- A call begins after all else in the turn so far, and it takes a while until it has begun. -/
theorem begunIn_newCall (s : Run) (tier : Tier) (p : Payload) :
    (s.newCall j tier p).BegunIn s.now (s.addCall j tier p).now where
  low := le_add_of_nonneg_right s.delay.2
  high := le_rfl
  started := by simp only [Run.newCall, CallRecord.start, Run.msSince, sub_zero]
  running := rfl
  elapsed := rfl

theorem Call.BegunIn.mono {t u t' u' : ℚ} {c : Call} (h : c.BegunIn t u) (ht : t' ≤ t)
    (hu : u ≤ u') : c.BegunIn t' u' :=
  { h with low := ht.trans h.low, high := h.high.trans hu }

theorem Clocked.addCall (h : Clocked i a s) (tier : Tier) (p : Payload) :
    Clocked i a (s.addCall j tier p) := by
  have hnew := begunIn_newCall (j := j) s tier p
  have hpass : s.now ≤ (s.addCall j tier p).now :=
    hnew.low.trans ((s.newCall j tier p).opened_le.trans hnew.high)
  refine ⟨h.now.trans hpass, fun k c hc => ?_, fun k c hk hc => ?_, fun m k c d hm hmk hc hd => ?_⟩
  · obtain ⟨c', hc', hor⟩ := h.old k c hc
    refine ⟨c', ?_, hor⟩
    simp only [Run.addCall]
    rw [List.getElem?_append_left (List.getElem?_eq_some_iff.mp hc').1, hc']
  · rcases getElem?_concat_cases hc with hc | ⟨rfl, rfl⟩
    · exact (h.new k c hk hc).mono le_rfl hpass
    · exact hnew.mono h.now le_rfl
  · rcases getElem?_concat_cases hd with hd | ⟨rfl, rfl⟩
    · refine h.sorted m k c d hm hmk ?_ hd
      have hlt := (List.getElem?_eq_some_iff.mp hd).1
      rwa [Run.addCall, List.getElem?_append_left (hmk.trans hlt)] at hc
    · -- the earlier call began before this one was added
      rw [Run.addCall, List.getElem?_append_left hmk] at hc
      have hold := h.new m c hm hc
      exact c.opened_le.trans (hold.high.trans hnew.low)

theorem pending_addCall (s : Run) (i : Thread) (tier : Tier) (p : Payload) :
    Pending i s.calls.length (s.addCall i tier p) :=
  ⟨_, List.getElem?_concat_length .., rfl, rfl⟩

/-- What leaves the calls alone leaves a call pending. -/
theorem Pending.congr (h : Pending i k s) (hc : s'.calls = s.calls) : Pending i k s' := by
  unfold Pending
  rw [hc]
  exact h

/-- Ending a call of one's own at the beginning of a turn. -/
theorem Clocked.endCall {c : Call} {f : Call → Call} (hc : s.calls[k]? = some c)
    (hi : c.thread = i) (hf : c.EndedAt s.now (f c)) : Clocked i s (s.setCall k f) where
  now := le_rfl
  old m d hd := by
    simp only [Run.setCall, List.getElem?_modify, hd, Option.map_eq_map, Option.map_some]
    by_cases hm : k = m
    · subst hm
      cases hc.symm.trans hd
      exact ⟨f c, by simp, .inr ⟨hi, hf⟩⟩
    · exact ⟨d, by simp [hm], .inl rfl⟩
  new m c' hm hc' := by
    rw [List.getElem?_eq_none (by simpa [Run.setCall] using hm)] at hc'
    cases hc'
  sorted m _ c' _ hm _ hc' _ := by
    rw [List.getElem?_eq_none (by simpa [Run.setCall] using hm)] at hc'
    cases hc'

/-! ## Code that leaves the calls alone -/

theorem inTime_update {f : Run → Run} (hc : ∀ s, (f s).calls = s.calls)
    (hn : ∀ s, (f s).now = s.now) : InTime i (Coro.update f) :=
  Coro.Keeps.update fun _ s h => h.congr (hc s) (hn s)

theorem inTime_ask {op : Op} (h : ∀ k, op ≠ .complete k) : InTime i (ask op) := by
  refine Coro.Keeps.request (fun s => ?_) (Clocked.refl i)
  cases op with
  | complete k => exact absurd rfl (h k)
  | _ => trivial

theorem inTime_event (me : Thread) (d : EventData) (done : Bool) :
    InTime i (event x me d done) := by
  refine .bind (inTime_update (fun _ => rfl) fun _ => rfl) fun _ => .ite ?_ (.pure ())
  refine .bind .read fun s => .bind ?_ fun _ => ?_
  · exact .bind .read fun s => .ite (inTime_update (fun _ => rfl) fun _ => rfl)
      (.bind (inTime_update (fun _ => rfl) fun _ => rfl) fun _ => inTime_ask (by simp))
  · refine .tryFinally (.tryExcept ?_ fun e => .ite (.pure ()) (.raise e))
      (inTime_update (fun _ => rfl) fun _ => rfl)
    exact .bind (inTime_update (fun _ => rfl) fun _ => rfl) fun _ => inTime_ask (by simp)

theorem inTime_spend (tier : Tier) (op : Operation) : InTime i (spend x tier op) := by
  refine .bind .read fun s => .ite ?_ (.pure ())
  exact .bind (inTime_update (fun _ => rfl) fun _ => rfl) fun _ => .ofExcept _

/-- Stopping a watcher leaves the calls and the clock alone. -/
theorem turn_unwatch {Q : Except Exc Unit → Run → Run → Prop}
    (h : ∀ s', s'.calls = s.calls → s'.now = s.now → Q (.ok ()) a s') :
    (unwatch k).turn (clockTerms i) Q a s := by
  unfold unwatch
  rw [Coro.turn_bind, Coro.turn_read, Coro.either_ok]
  split
  · exact h _ rfl rfl
  · exact h _ rfl rfl

theorem inTime_reportCall (me : Thread) (k : ℕ) : InTime i (reportCall x me k) := by
  refine .bind .read fun s => ?_
  split
  · exact inTime_event me _ _
  · exact .pure ()

/-! ## Model calls -/

/-- In a turn that began in `a`, call `k` of task `i` has ended, and the time it took is not in
its record yet. -/
def JustEnded (i : Thread) (k : ℕ) (a s : Run) : Prop :=
  ∃ c c' : Call, a.calls[k]? = some c ∧ c.thread = i ∧ c.Ends c' ∧ s.now = a.now ∧
    s.calls = a.calls.set k c'

theorem JustEnded.congr (h : JustEnded i k a s) (hc : s'.calls = s.calls) (hn : s'.now = s.now) :
    JustEnded i k a s' := by
  obtain ⟨c, c', hk, hi, hends, hnow, hcalls⟩ := h
  exact ⟨c, c', hk, hi, hends, hn.trans hnow, hc.trans hcalls⟩

/-- The time goes into the record before the turn is over. -/
theorem JustEnded.clocked (h : JustEnded i k a s) :
    Clocked i a (s.setCall k fun c =>
      { c with record := { c.record with elapsedMs := s.elapsed k } })
    where
  now := by
    obtain ⟨c, c', -, -, -, hnow, -⟩ := h
    exact hnow.ge
  old m d hd := by
    obtain ⟨c, c', hk, hi, hends, hnow, hcalls⟩ := h
    have hlt := (List.getElem?_eq_some_iff.mp hd).1
    by_cases hm : k = m
    · subst hm
      cases hk.symm.trans hd
      have hat : s.calls[k]? = some c' := by simp [hcalls, hlt]
      refine ⟨{ c' with record := { c'.record with elapsedMs := s.elapsed k } }, ?_, .inr ⟨hi, ?_⟩⟩
      · simp [Run.setCall, hat]
      · refine { hends with elapsed := ?_, .. }
        simp only [Run.elapsed, hat, Run.msSince, hnow, hends.begun]
    · refine ⟨d, ?_, .inl rfl⟩
      simp [Run.setCall, hcalls, hm, hd]
  new m c' hm hc' := by
    obtain ⟨c, d, -, -, -, -, hcalls⟩ := h
    rw [List.getElem?_eq_none (by simpa [Run.setCall, hcalls] using hm)] at hc'
    cases hc'
  sorted m _ c' _ hm _ hc' _ := by
    obtain ⟨c, d, -, -, -, -, hcalls⟩ := h
    rw [List.getElem?_eq_none (by simpa [Run.setCall, hcalls] using hm)] at hc'
    cases hc'

theorem ends_complete {c : Call} (h : c.ended = none) (v : Json) (op : Operation) (r : Reply) :
    c.Ends { c with record := CallRecord.complete x.lib op r c.record, ended := some (.ok v) } :=
  ⟨h, rfl, rfl, rfl, rfl, rfl, rfl, rfl, rfl⟩

/-- The provider's part of a call: the call has ended, or it is still to be ended. -/
theorem turn_complete {op : Operation} (h : Clocked i a s) (hk : Pending i k s) :
    (complete x k op).turn (clockTerms i)
      (Coro.either (fun _ => JustEnded i k) fun _ a s => a = s ∧ Pending i k s) a s := by
  unfold complete
  rw [Coro.turn_bind]
  have hwatch : ∀ Q, (∀ s', s'.calls = s.calls → s'.now = s.now → Q (.ok ()) a s') →
      (watch x k).turn (clockTerms i) Q a s := by
    intro Q hQ
    unfold watch
    split
    · exact hQ _ rfl rfl
    · exact hQ _ rfl rfl
  refine hwatch _ fun s' hc hn => ?_
  rw [Coro.either_ok, Coro.turn_bind, ask, Coro.turn_request]
  refine ⟨h.congr hc hn, hk.congr hc, fun r s₁ hp => ?_⟩
  rcases r with e | _ | reply
  · exact ⟨rfl, hp⟩
  · exact ⟨rfl, hp⟩
  · simp only [takeReply, Coro.either_ok]
    by_cases hempty : reply.model.isEmpty = true
    · rw [if_pos hempty]
      exact ⟨rfl, hp⟩
    · rw [if_neg hempty]
      obtain ⟨c, hc, hi, hopen⟩ := id hp
      exact ⟨c, _, hc, hi, ends_complete hopen _ op _, rfl, modify_eq_set _ hc⟩

/-- A call that raises has ended, with its time. -/
theorem turn_callFailed {me : Thread} {e : Exc} (hk : Pending i k s) :
    (callFailed x me k e).turn (clockTerms i)
      (Coro.either (fun _ _ _ => False) fun _ => Clocked i) s s := by
  obtain ⟨c, hc, hi, hopen⟩ := hk
  have hend : ∀ f : CallRecord → CallRecord, (∀ r : CallRecord, (f r).startedMs = r.startedMs ∧
      (f r).operation = r.operation ∧ (f r).taskId = r.taskId ∧ (f r).tier = r.tier ∧
      (f r).elapsedMs = s.elapsed k) → Clocked i s (Run.endCall k (.error e) f s) := by
    intro f hf
    obtain ⟨hstarted, hop, hid, htier, helapsed⟩ := hf c.record
    refine Clocked.endCall hc hi ⟨⟨hopen, rfl, rfl, rfl, rfl, hstarted, hop, hid, htier⟩, ?_⟩
    rw [helapsed]
    simp [Run.elapsed, hc, Run.msSince]
  unfold callFailed
  rw [Coro.turn_bind, Coro.turn_read, Coro.either_ok]
  by_cases hexc : e.isException = true
  · rw [if_pos hexc, Coro.turn_bind, Coro.turn_update, Coro.either_ok, Coro.turn_bind]
    refine (inTime_reportCall me k s _ (hend _ ?_)).mono ?_
    · exact fun r => ⟨rfl, rfl, rfl, rfl, rfl⟩
    · rintro (e' | u) b t h
      · exact h
      · exact h
  · rw [if_neg hexc]
    exact hend _ fun r => ⟨rfl, rfl, rfl, rfl, rfl⟩

/-- **A model call is clocked**: it begins in one turn and ends in a later one. -/
theorem inTime_callWithRecord (tier : Tier) (p : Payload) :
    InTime i (callWithRecord x i tier p) := by
  refine .bind (inTime_spend tier p.operation) fun _ a s h => ?_
  have hadd := h.addCall (j := i) tier p
  have hpending := pending_addCall s i tier p
  rw [Coro.turn_bind, Coro.turn_read, Coro.either_ok, Coro.turn_bind, Coro.turn_update,
    Coro.either_ok, Coro.turn_bind, Coro.turn_tryFinally, Coro.turn_tryExcept]
  refine (turn_complete hadd hpending).mono ?_
  rintro (e | v) b t h
  · -- the call raised: its end is in the record before the watcher is stopped
    obtain ⟨rfl, hp⟩ := h
    refine (turn_callFailed hp).mono ?_
    rintro (e' | v) b t h
    · exact turn_unwatch fun s' hc hn => h.congr hc hn
    · exact h.elim
  · refine turn_unwatch fun s' hc hn => ?_
    rw [Coro.either_ok, Coro.either_ok, Coro.turn_bind, Coro.turn_update, Coro.either_ok]
    exact Coro.Keeps.bind (inTime_reportCall i s.calls.length)
      (fun _ => .bind .read fun _ => .pure _) b _ (h.congr hc hn).clocked

theorem inTime_call (tier : Tier) (p : Payload) : InTime i (call x i tier p) :=
  .bind (inTime_callWithRecord tier p) fun _ => .pure _

/-! ## The tasks -/

theorem inTime_tryExtract : InTime .main (tryExtract x) := by
  refine .bind (inTime_event _ _ _) fun _ => .bind (inTime_call _ _) fun v => ?_
  split
  · exact .bind (inTime_event _ _ _) fun _ => .pure _
  · exact .bind (inTime_update (fun _ => rfl) fun _ => rfl) fun _ =>
      .bind (inTime_event _ _ _) fun _ => .pure _

theorem inTime_exceptRelay {α : Type} {c : Prog α} {h : Exc → Prog α} (hc : InTime i c)
    (hh : ∀ e, InTime i (h e)) : InTime i (exceptRelay c h) :=
  .tryExcept hc fun e => .ite (hh e) (.raise e)

theorem inTime_sample (tier : Tier) (n : ℕ) : InTime .main (sample x tier n) := by
  refine .bind (inTime_exceptRelay ?_ fun e => .pure _) fun r => ?_
  · exact .bind (inTime_callWithRecord _ _) fun r => .pure _
  · exact .bind (.ofExcept _) fun a => .bind (inTime_event _ _ _) fun _ => .pure _

theorem inTime_samplesFrom (tier : Tier) (n m : ℕ) : InTime .main (samplesFrom x tier n m) := by
  induction n generalizing m with
  | zero => exact .pure _
  | succ n ih =>
      exact .bind (inTime_sample tier m) fun a =>
        .ite (.pure _) (.bind (ih (m + 1)) fun _ => .pure _)

theorem inTime_critiqueOf (tier : Tier) (samples : List Assessment) :
    InTime .main (critiqueOf x tier samples) := by
  refine .ite (.pure _) (.ite (.pure _) (.bind (inTime_event _ _ _) fun _ => ?_))
  refine inTime_exceptRelay ?_ fun e => .pure _
  exact .bind (inTime_call _ _) fun v => .bind (.ofExcept _) fun c => .pure _

theorem inTime_judgeLocally (tier : Tier) : InTime .main (judgeLocally x tier) :=
  .bind (inTime_event _ _ _) fun _ => .bind (inTime_samplesFrom tier _ _) fun samples =>
    .bind (inTime_critiqueOf tier samples) fun _ => .bind (.ofExcept _) fun _ =>
      .bind (inTime_event _ _ _) fun _ => .pure _

theorem inTime_cascade (tiers : List Tier) : InTime .main (cascade x tiers) := by
  induction tiers with
  | nil => exact .pure _
  | cons tier tiers ih =>
      refine .ite ?_ ?_
      · exact .bind (inTime_update (fun _ => rfl) fun _ => rfl) fun _ =>
          .bind (inTime_event _ _ _) fun _ => ih
      · refine .bind (inTime_judgeLocally tier) fun v =>
          .bind (inTime_update (fun _ => rfl) fun _ => rfl) fun _ => .ite ih ?_
        exact .bind (inTime_update (fun _ => rfl) fun _ => rfl) fun _ =>
          .bind (inTime_event _ _ _) fun _ => .pure _

theorem inTime_planFrom (context : List LocalAttempt) (n m : ℕ) (error : Option Str) :
    InTime .main (planFrom x context n m error) := by
  induction n generalizing m error with
  | zero => exact .raise _
  | succ n ih =>
      refine .bind (inTime_call _ _) fun raw => ?_
      split
      · exact .bind (inTime_update (fun _ => rfl) fun _ => rfl) fun _ =>
          .bind (inTime_event _ _ _) fun _ => .pure _
      · exact .ite (.bind (inTime_event _ _ _) fun _ => ih _ _) (.raise _)

theorem inTime_perform (n : ℕ) (task : Task) (inputs : Inputs) (tier : Tier) (attempt : ℕ)
    (errors : List Str) : InTime (.job n) (perform x n task inputs tier attempt errors) := by
  have hbody : InTime (.job n) (do
      event x (.job n) (.taskStarted task.id tier attempt (x.model? tier))
      callWithRecord x (.job n) tier (.work task inputs x.goal attempt errors)) :=
    .bind (inTime_event _ _ _) fun _ => inTime_callWithRecord _ _
  refine .ite hbody (.bind (inTime_ask (by simp)) fun _ => .tryFinally hbody ?_)
  exact inTime_update (fun _ => rfl) fun _ => rfl

theorem inTime_ladder (n : ℕ) (task : Task) (inputs : Inputs) (tiers : List Tier) (attempt : ℕ)
    (previous : Tier) (errors : List Str) :
    InTime (.job n) (ladder x n task inputs tiers attempt previous errors) := by
  induction tiers generalizing attempt previous errors with
  | nil => exact .raise _
  | cons tier tiers ih =>
      refine .bind (.ite (inTime_event _ _ _) (.pure ())) fun _ =>
        .bind (.attempt (inTime_perform n task inputs tier attempt errors)) ?_
      rintro (e | ⟨v, record⟩)
      · exact .ite (.raise e) (.ite (.bind (inTime_event _ _ _) fun _ => ih _ _ _) (.raise e))
      · simp only
        split
        · exact .ite (.bind (inTime_event _ _ _) fun _ => ih _ _ _) (.raise _)
        · exact .bind (inTime_update (fun _ => rfl) fun _ => rfl) fun _ =>
            .bind (inTime_event _ _ _) fun _ => .pure _

theorem inTime_setResults (entries : List (Task × Json)) :
    InTime i (Coro.update (Run.setResults entries)) := by
  have hsame : ∀ s : Run, (Run.setResults entries s).calls = s.calls ∧
      (Run.setResults entries s).now = s.now := by
    induction entries with
    | nil => exact fun s => ⟨rfl, rfl⟩
    | cons e entries ih => exact fun s => ih (s.setResult e.1.id e.2)
  exact inTime_update (fun s => (hsame s).1) fun s => (hsame s).2

theorem cancelJobs_now (js : List ℕ) (s : Run) : (Run.cancelJobs js s).now = s.now := by
  unfold Run.cancelJobs
  generalize js.filter s.toLedger.running = ns
  induction ns generalizing s with
  | nil => rfl
  | cons n ns ih => exact ih (s.cancel (.job n))

theorem cancelMain_now (s : Run) : s.cancelMain.now = s.now := by
  unfold Run.cancelMain
  split
  · split
    · exact cancelJobs_now _ s
    · rfl
  · rfl

theorem inTime_batch (ready : List Task) : InTime .main (batch ready) := by
  have hwait : ∀ (op : Op) js, (∀ k, op ≠ .complete k) → InTime .main (do
      Coro.update fun s : Run => { s with gathering := some js, gatherCancelled := false }
      ask op) := fun op js hop =>
    .bind (inTime_update (fun _ => rfl) fun _ => rfl) fun _ => inTime_ask hop
  refine .bind .read fun s => .bind (inTime_update (fun _ => rfl) fun _ => rfl) fun _ =>
    .tryFinally (.bind (hwait _ _ (by simp)) fun _ => inTime_setResults _)
      (.bind ?_ fun _ => hwait _ _ (by simp))
  exact inTime_update (fun s => congrArg Ledger.calls (cancelJobs_toLedger _ s))
    fun s => cancelJobs_now _ s

theorem inTime_runBatches (turns : ℕ) (pending : List Task) (h : pending.length ≤ turns) :
    InTime .main (runBatches turns pending h) := by
  induction turns generalizing pending with
  | zero =>
      cases pending with
      | nil => exact .pure ()
      | cons t pending => cases h
  | succ turns ih =>
      cases pending with
      | nil => exact .pure ()
      | cons t pending =>
          refine .bind .read fun s => ?_
          split
          · exact .raise _
          · exact .bind (inTime_batch _) fun _ => ih _ _

theorem inTime_finalAnswer (v : Json) (refusal : String) :
    InTime i (finalAnswer x v refusal) := by
  unfold finalAnswer
  split
  · exact .ite (.raise _) (.pure _)
  · exact .raise _

theorem inTime_escalate : InTime .main (escalate x) := by
  refine .bind (inTime_update (fun _ => rfl) fun _ => rfl) fun _ => .bind .read fun s =>
    .bind (inTime_event _ _ _) fun _ => .ite ?_ ?_
  · exact .bind (inTime_planFrom _ _ _ _) fun _ => .bind (inTime_runBatches _ _ _) fun _ =>
      .bind (inTime_event _ _ _) fun _ => .bind .read fun _ => .bind (inTime_call _ _) fun _ =>
        inTime_finalAnswer _ _
  · exact .bind (inTime_event _ _ _) fun _ => .bind (inTime_call _ _) fun _ =>
      inTime_finalAnswer _ _

theorem inTime_route : InTime .main (route x) := by
  refine .bind (inTime_cascade _) ?_
  rintro (_ | content)
  · exact inTime_escalate
  · exact .pure _

theorem inTime_execute : InTime .main (execute x) := by
  refine .ite (.bind inTime_tryExtract ?_) inTime_route
  rintro (_ | answer)
  · exact inTime_route
  · exact .bind (inTime_update (fun _ => rfl) fun _ => rfl) fun _ => .pure _

theorem inTime_answerRequest : InTime .main (answerRequest x) := by
  refine .bind (.ite ?_ (.pure _)) fun found => .bind (inTime_event _ _ _) fun _ =>
    .bind (.ite (inTime_event _ _ _) (.pure _)) fun _ => .bind inTime_execute fun content => ?_
  · exact .tryExcept (inTime_ask (by simp)) fun e => .ite (.pure _) (.raise e)
  · exact .bind .read fun _ => .bind (inTime_event _ _ _) fun _ => .bind .read fun _ => .pure _

theorem inTime_run : ∀ r, InTime .main (do
    Coro.ofExcept (r : Except Exc Unit)
    if x.goal.length < 1 ∨ 8000 < x.goal.length then
      Coro.raise (relayError "Goal must be text of at most 8000 characters".toList)
    else if !x.requestOk then
      .raise (relayError
        "Sources must be nonempty text within the prototype's 32000-character limit".toList)
    else (deadline (answerRequest x)).tryExcept (runFailed x)) := by
  intro r
  refine .bind (.ofExcept r) fun _ => .ite (.raise _) (.ite (.raise _) (.tryExcept ?_ fun e => ?_))
  · refine .bind (inTime_update (fun _ => rfl) fun _ => rfl) fun _ =>
      .bind (.attempt inTime_answerRequest) fun r => .bind .read fun s =>
        .bind (inTime_update (fun _ => rfl) fun _ => rfl) fun _ => ?_
    rcases r with e | a
    · exact .ite (.raise _) (.raise _)
    · exact .pure _
  · refine .bind .read fun s => .ite ?_ (.ite ?_ ?_)
    · exact .bind (inTime_update (fun _ => rfl) fun _ => rfl) fun _ =>
        .bind (inTime_event _ _ _) fun _ => .raise _
    · exact .bind (inTime_event _ _ _) fun _ => .raise _
    · exact .bind (inTime_event _ _ _) fun _ => .ite (.raise _) (.raise _)

theorem inTime_work (n : ℕ) : ∀ r, InTime (.job n) (do
    let task ← Coro.ofExcept (r : Except Exc Task)
    let s ← Coro.read
    let inputs ← Coro.ofExcept (resolveInputs x.sources s.results task.inputRefs .empty)
    ladder x n task inputs (x.policy.workerTiers task x.tiers) 1 task.preferredTier []) :=
  fun r => .bind (.ofExcept r) fun task => .bind .read fun _ => .bind (.ofExcept _) fun inputs =>
    inTime_ladder n task inputs _ _ _ _

theorem inTime_reportOutput (k : ℕ) (text : Str) : InTime i (reportOutput x k text) := by
  refine .bind .read fun s => ?_
  split
  · exact inTime_event _ _ _
  · exact .pure ()

theorem inTime_follow (k : ℕ) : ∀ r, InTime (.follower k) (Coro.tryExcept (do
    Coro.ofExcept (r : Except Exc Unit)
    let s ← Coro.read
    let live := s.live k
    if live.text.length = live.shown then pure true
    else do
      Coro.update (Run.setLive k fun l => { l with shown := live.text.length })
      reportOutput x k live.text
      pure true) fun e => if e.isException then .raise e else pure false) := by
  refine fun r => .tryExcept (.bind (.ofExcept r) fun _ => .bind .read fun s => ?_)
    fun e => .ite (.raise e) (.pure _)
  exact .ite (.pure _) (.bind (inTime_update (fun _ => rfl) fun _ => rfl) fun _ =>
    .bind (inTime_reportOutput _ _) fun _ => .pure _)

/-! ## Steps of a run -/

theorem answerOp_now {op : Op} {m : Choice} {r : Except Exc (Ans op)}
    (h : answerOp x i op s m = some (r, s')) : s'.now = s.now := by
  cases op with
  | begin => cases (ordinary_eq_some h).2; rfl
  | start n =>
      replace h := (ordinary_eq_some h).2
      split at h
      · obtain ⟨job, -, h⟩ := Option.map_eq_some_iff.mp h
        cases h
        rfl
      · cases h
  | locations => rw [(answerLocations_cases h).1]; rfl
  | lock =>
      replace h := (ordinary_eq_some h).2
      split at h <;> cases h
      rfl
  | emit e => rw [(answerEmit_cases h).1]; rfl
  | slot =>
      replace h := (ordinary_eq_some h).2
      split at h <;> cases h
      rfl
  | complete k =>
      cases m <;> simp only [answerOp, answerComplete] at h <;> (try split at h) <;> cases h <;>
        rfl
  | sleep k =>
      replace h := (ordinary_eq_some h).2
      split at h <;> cases h
      rfl
  | gather js => rw [(answerGather_cases (ordinary_eq_some h).2).1]; rfl
  | join js => rw [(answerJoin_cases (ordinary_eq_some h).2).1]; rfl

/-- Answers take no time. -/
theorem answer_now {op : Op} {m : Choice} {r : Except Exc (Ans op)}
    (h : answer x i op s m = some (r, s')) : s'.now = s.now := by
  rcases answer_cases h with ⟨-, -, -, -, rfl⟩ | ⟨-, -, h⟩
  · cases op <;> rfl
  · exact answerOp_now h

theorem answer_calls {op : Op} {m : Choice} {r : Except Exc (Ans op)}
    (h : answer x i op s m = some (r, s')) : s'.calls = s.calls :=
  congrArg Ledger.calls (answer_toLedger h)

theorem finish_clock (i : Thread) (r : Except Exc Result) (s : Run) :
    (finish i r s).calls = s.calls ∧ (finish i r s).now = s.now := by
  unfold finish
  split <;> exact ⟨rfl, rfl⟩

/-- A turn under the terms, with its answer and its end, is clocked. -/
theorem clocked_of_turned (h : x.system.Turned clockTerms i a b) : Clocked i a b := by
  obtain ⟨op, m, r, s₁, s', ha, hdid, hb⟩ := h
  have hcalls := answer_calls ha
  have hnow := answer_now ha
  have hclock : Clocked i a s' := by
    refine ⟨hnow ▸ hdid.now, fun k c hc => ?_, fun k c hk hc => ?_, fun j k c d hj => ?_⟩
    · rw [← hnow]
      exact hdid.old k c (hcalls ▸ hc)
    · rw [← hnow]
      exact hdid.new k c (hcalls ▸ hk) hc
    · exact hdid.sorted j k c d (hcalls ▸ hj)
  rcases hb with rfl | ⟨r', rfl⟩
  · exact hclock
  · exact hclock.congr (finish_clock i r' s').1 (finish_clock i r' s').2

theorem Waits.congr {op : Op} (h : Waits i op s) (hc : s'.calls = s.calls) : Waits i op s' := by
  cases op with
  | complete k => exact Pending.congr h hc
  | _ => trivial

/-- Another task's turn ends no call of one's own. -/
theorem Waits.of_clocked {op : Op} (h : Waits i op a) (hij : i ≠ j) (hc : Clocked j a b) :
    Waits i op b := by
  cases op with
  | complete k =>
      obtain ⟨c, hk, hi, hopen⟩ := h
      obtain ⟨c', hk', rfl | ⟨hj, -⟩⟩ := hc.old k c hk
      · exact ⟨c', hk', hi, hopen⟩
      · exact absurd (hi.symm.trans hj) hij
  | _ => trivial

/-- **The tasks of a run keep their terms.** -/
theorem clockTerms_rules (x : Setup) : x.system.TurnRules clockTerms where
  refl := Clocked.refl
  start i := by
    cases i with
    | main =>
        exact ⟨.begin, fun _ => trivial, _, rfl, fun r => (inTime_run r).bind fun _ => .pure _⟩
    | job n =>
        exact ⟨.start n, fun _ => trivial, _, rfl, fun r => (inTime_work n r).bind fun _ => .pure _⟩
    | follower k =>
        exact ⟨.sleep k, fun _ => trivial, _, rfl,
          fun r => (inTime_follow k r).bind fun _ => .pure _⟩
  answer i op s m r s₁ ha hw := Waits.congr hw (answer_calls ha)
  others i j a b op hij ht hw := Waits.of_clocked hw hij (clocked_of_turned ht)
  moves i v a b op hm hw := Waits.congr hw (congrArg Ledger.calls (move_toLedger hm))

theorem move_now {v : Move} (h : move x v s = some s') : s.now ≤ s'.now := by
  cases v with
  | tick d =>
      simp only [move] at h
      split at h <;> cases h
      rename_i hd
      exact le_add_of_nonneg_right hd
  | pace delay lag => cases h; exact le_rfl
  | deadline =>
      simp only [move] at h
      split at h <;> cases h
      exact (cancelMain_now s).ge
  | cancelRun =>
      simp only [move] at h
      split at h
      · cases h
      · split at h <;> cases h
        · exact le_rfl
        · exact (cancelMain_now s).ge
  | delta k text =>
      simp only [move] at h
      split at h
      · split at h <;> cases h
        split <;> exact le_rfl
      · cases h

/-- **Every step of a run is clocked**, or leaves the calls alone while time passes. -/
theorem Setup.Reachable.clocked {c c' : State} {l : Label Thread Choice Move}
    (h : x.Reachable c) (hs : x.system.step c l = some c') :
    (∃ i, Clocked i c.shared c'.shared) ∨
      c'.shared.calls = c.shared.calls ∧ c.shared.now ≤ c'.shared.now := by
  cases l with
  | resume i m => exact .inl ⟨i, clocked_of_turned ((clockTerms_rules x).turned h hs)⟩
  | move v =>
      obtain ⟨s', hmove, rfl⟩ := System.step_move hs
      exact .inr ⟨congrArg Ledger.calls (move_toLedger hmove), move_now hmove⟩

end HorizonRelay
