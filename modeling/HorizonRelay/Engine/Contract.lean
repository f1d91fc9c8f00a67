import HorizonRelay.Engine.Rely

/-!
# The proof outline of a run

`contract` is the outline under which every task of a run is verified: between suspensions
the records are `Ledger.Ok`, a task changes them as `Guar` says and expects what `Rely`
says.  Answers never touch the records, so the rules for suspending depend on the records
alone.

## Main definitions

* `endOf`, `Admits` — how a call ends under an answer, and the steps considered.
* `contract` — the outline.

## Main results

* `wp_ask` — suspending at a request.
* `wp_event` — reporting an event leaves the records to the others.
-/

namespace HorizonRelay

open Py Coop

/-! ## The outline -/

/-- How a call ends under the provider's answer. -/
def endOf (op : Operation) (k : ℕ) : Choice → Except Exc Json
  | .reply (some r) => if r.model.isEmpty then .error (invalidReply k) else .ok (openReply op r).1
  | .reply none => .error (invalidReply k)
  | .raise e => .error (ofCall k e)
  | .timeout => .error (ofCall k timeoutError)
  | _ => .error cancelledError

/-- Under this answer the call waited for, if any, ends in a permitted way. -/
def Allowed (permit : Permit) (op : Op) (s : Run) (m : Choice) : Prop :=
  ∀ k c, op = .complete k → s.calls[k]? = some c →
    permit c.record.tier c.payload (endOf c.payload.operation k m)

/-- The steps considered: every call that ends, ends in a permitted way. -/
def Admits (permit : Permit) (c : State) (l : Label Thread Choice Move) : Prop :=
  ∀ i m op cont, l = .resume i m → c.pool i = .await op cont → Allowed permit op c.shared m

theorem admits_anyEnd (c : State) (l : Label Thread Choice Move) : Admits anyEnd c l :=
  fun _ _ _ _ _ _ _ _ _ _ => trivial

variable (x : Setup) (permit : Permit)

/-- The outline under which the tasks of a run are verified. -/
def contract : Contract Thread Op Ans Run Exc Result Choice where
  covered _ := True
  rely i s s' := Rely i s.toLedger s'.toLedger
  guar i s s' := Guar i s.toLedger s'.toLedger
  inv s := s.toLedger.Ok x permit
  known _ := True
  allow _ op s m := Allowed permit op s m
  post i r s := s.toLedger.Ok x permit ∧ (finish i r s).toLedger.Ok x permit ∧
    Guar i s.toLedger (finish i r s).toLedger

/-- The terms task `i` runs under. -/
abbrev terms (i : Thread) : Terms Op Ans Run Exc := (contract x permit).terms x.system i

variable {x permit} {i : Thread} {α : Type}

/-! ## Answers -/

/-- A cancellation leaves the records alone. -/
theorem leave_toLedger (op : Op) (s : Run) : (leave i op s).toLedger = s.toLedger := by
  cases op <;> rfl

theorem ordinary_eq_some {β : Type} {m : Choice} {a : Option β} {b : β}
    (h : m.ordinary a = some b) : m = .go ∧ a = some b := by
  cases m with
  | go => exact ⟨rfl, h⟩
  | _ => cases h

/-- An answer is a cancellation, or one the request gets in the ordinary course. -/
theorem answer_cases {op : Op} {s s' : Run} {m : Choice} {r : Except Exc (Ans op)}
    (h : answer x i op s m = some (r, s')) :
    (m = .cancel ∧ i ∈ s.cancels ∧ op.interruptible s = true ∧ r = .error cancelledError ∧
      s' = leave i op s) ∨
    (m ≠ .cancel ∧ (i ∈ s.cancels → op.isForeign = true) ∧
      answerOp x i op s m = some (r, s')) := by
  unfold answer at h
  split at h
  · left
    unfold answerCancel at h
    split at h
    · rename_i hc
      simp only [Option.some.injEq, Prod.mk.injEq] at h
      exact ⟨rfl, hc.1, hc.2, h.1.symm, h.2.symm⟩
    · cases h
  · right
    split at h
    · cases h
    · rename_i hm hc
      refine ⟨hm, ?_, h⟩
      intro hi
      by_contra hop
      exact hc ⟨hi, by simpa using hop⟩

theorem answerGather_cases {js : List ℕ} {s s' : Run} {r : Except Exc (List Json)}
    (h : answerGather js s = some (r, s')) :
    s' = s.gathered ∧ ((∃ e, r = .error e ∧ s.firstError js = some e) ∨
      r = .error cancelledError ∨ ∃ values, r = .ok values ∧
        js.mapM s.toLedger.valueOf = some values) := by
  unfold answerGather at h
  split at h
  · rename_i e he
    simp only [Option.some.injEq, Prod.mk.injEq] at h
    exact ⟨h.2.symm, .inl ⟨e, h.1.symm, he⟩⟩
  · obtain ⟨values, hv, h⟩ := Option.map_eq_some_iff.mp h
    split at h
    · cases h
      exact ⟨rfl, .inr (.inl rfl)⟩
    · cases h
      exact ⟨rfl, .inr (.inr ⟨values, rfl, hv⟩)⟩

theorem answerJoin_cases {js : List ℕ} {s s' : Run} {r : Except Exc Unit}
    (h : answerJoin js s = some (r, s')) :
    s' = s.gathered ∧ js.any s.toLedger.running = false ∧
      (r = .ok () ∨ r = .error cancelledError) := by
  unfold answerJoin at h
  split at h
  · cases h
  · rename_i hjs
    split at h <;> cases h
    · exact ⟨rfl, by simpa using hjs, .inr rfl⟩
    · exact ⟨rfl, by simpa using hjs, .inl rfl⟩

/-- The provider describes where its models run, or raises. -/
theorem answerLocations_cases {s s' : Run} {m : Choice} {r : Except Exc (Dict Str Json)}
    (h : answerLocations i s m = some (r, s')) :
    s' = s.uncancel i ∧ ∀ e, r = .error e → e.isException = true := by
  cases m <;> simp only [answerLocations] at h
  case found d =>
    cases h
    exact ⟨rfl, fun e he => by cases he⟩
  case raise e =>
    split at h <;> cases h
    rename_i hexc
    exact ⟨rfl, fun e' he => by cases he; exact hexc⟩
  case timeout =>
    cases h
    exact ⟨rfl, fun e he => by cases he; rfl⟩
  all_goals cases h

/-- The callback returns or raises, and has the event in any case. -/
theorem answerEmit_cases {e : RelayEvent} {s s' : Run} {m : Choice} {r : Except Exc Unit}
    (h : answerEmit i e s m = some (r, s')) : s' = (s.uncancel i).see (.emitted e.seq) ∧
      ∀ err, r = .error err → err.isException = true := by
  cases m <;> simp only [answerEmit] at h
  case go =>
    cases h
    exact ⟨rfl, fun err he => by cases he⟩
  case raise err =>
    split at h <;> cases h
    rename_i hexc
    exact ⟨rfl, fun err' he => by cases he; exact hexc⟩
  case timeout =>
    cases h
    exact ⟨rfl, fun err he => by cases he; rfl⟩
  all_goals cases h

/-- The provider replies, or the call ends with an error of its own. -/
theorem answer_complete_cases {k : ℕ} {s s' : Run} {m : Choice}
    {r : Except Exc (Option Reply)} (h : answer x i (.complete k) s m = some (r, s')) :
    (∃ reply, m = .reply reply ∧ r = .ok reply) ∨
    ∃ e, r = .error e ∧ (∀ op, endOf op k m = .error e) ∧
      (e = cancelledError ∨ e.isException = true ∧ e.call = some k) := by
  rcases answer_cases h with ⟨rfl, -, -, rfl, -⟩ | ⟨hm, -, h⟩
  · exact .inr ⟨_, rfl, fun _ => rfl, .inl rfl⟩
  · cases m with
    | reply reply =>
        cases h
        exact .inl ⟨reply, rfl, rfl⟩
    | raise e =>
        simp only [answerOp, answerComplete] at h
        by_cases he : e.isException = true
        · rw [if_pos he] at h
          cases h
          exact .inr ⟨_, rfl, fun _ => rfl, .inr ⟨he, rfl⟩⟩
        · rw [if_neg he] at h
          cases h
    | timeout =>
        cases h
        exact .inr ⟨_, rfl, fun _ => rfl, .inr ⟨rfl, rfl⟩⟩
    | _ => cases h

/-- An ordinary answer leaves the records alone. -/
theorem answerOp_toLedger {op : Op} {s s' : Run} {m : Choice} {r : Except Exc (Ans op)}
    (h : answerOp x i op s m = some (r, s')) : s'.toLedger = s.toLedger := by
  cases op with
  | begin => cases (ordinary_eq_some h).2; rfl
  | start n =>
      replace h := (ordinary_eq_some h).2
      split at h
      · obtain ⟨job, -, h⟩ := Option.map_eq_some_iff.mp h
        cases h
        rfl
      · cases h
  | locations => rw [(answerLocations_cases h).1]; rfl
  | lock =>
      replace h := (ordinary_eq_some h).2
      split at h <;> cases h
      rfl
  | emit e => rw [(answerEmit_cases h).1]; rfl
  | slot =>
      replace h := (ordinary_eq_some h).2
      split at h <;> cases h
      rfl
  | complete k =>
      cases m <;> simp only [answerOp, answerComplete] at h <;> (try split at h) <;> cases h <;>
        rfl
  | sleep k =>
      replace h := (ordinary_eq_some h).2
      split at h <;> cases h
      rfl
  | gather js => rw [(answerGather_cases (ordinary_eq_some h).2).1]; rfl
  | join js => rw [(answerJoin_cases (ordinary_eq_some h).2).1]; rfl

/-- Answers leave the records alone. -/
theorem answer_toLedger {op : Op} {s s' : Run} {m : Choice} {r : Except Exc (Ans op)}
    (h : answer x i op s m = some (r, s')) : s'.toLedger = s.toLedger := by
  rcases answer_cases h with ⟨-, -, -, -, rfl⟩ | ⟨-, -, h⟩
  · exact leave_toLedger op s
  · exact answerOp_toLedger h

/-! ## Suspending -/

/-- Suspending at a request: the others may act, then the request is answered. -/
theorem wp_ask {op : Op} {s : Run} {Q : Except Exc (Ans op) → Run → Prop}
    (hs : s.toLedger.Ok x permit)
    (hQ : ∀ s₁ m r s', Rely i s.toLedger s'.toLedger → s'.toLedger.Ok x permit →
      s'.toLedger = s₁.toLedger → Allowed permit op s₁ m → answer x i op s₁ m = some (r, s') →
      Q r s') :
    (ask op).wp (terms x permit i) Q s := by
  unfold ask
  rw [Coro.wp_request]
  refine ⟨hs, ?_⟩
  rintro s₁ hr ⟨hs₁, -⟩ r s' ⟨m, ha, hm⟩
  have heq := answer_toLedger ha
  refine ⟨?_, hQ s₁ m r s' ?_ ?_ heq hm ha⟩
  · change Guar i s₁.toLedger s'.toLedger
    rw [heq]
    exact .refl i _
  · rw [heq]
    exact hr
  · rw [heq]
    exact hs₁

/-- An outcome that is no error but the cancellation of the task. -/
def Passed (r : Except Exc α) : Prop := ∀ e, r = .error e → e = cancelledError

@[simp] theorem passed_ok (a : α) : Passed (.ok a : Except Exc α) := by
  intro e h
  cases h

@[simp] theorem passed_error (e : Exc) : Passed (.error e : Except Exc α) ↔ e = cancelledError := by
  refine ⟨fun h => h e rfl, ?_⟩
  rintro rfl e h
  cases h
  rfl

/-- A postcondition about the records, and about cancellations as the only errors. -/
def Leaves (i : Thread) (permit : Permit) (x : Setup) (l : Ledger)
    (Q : Except Exc Unit → Run → Prop) : Prop :=
  ∀ r s', Rely i l s'.toLedger → s'.toLedger.Ok x permit → Passed r → Q r s'

theorem Leaves.of_rely {l l' : Ledger} {Q : Except Exc Unit → Run → Prop}
    (h : Leaves i permit x l Q) (hr : Rely i l l') : Leaves i permit x l' Q :=
  fun r s' hr' hs' hp => h r s' (hr.trans hr') hs' hp

/-- A write that leaves the records alone. -/
theorem wp_update_of_eq {f : Run → Run} {s : Run} {Q : Except Exc Unit → Run → Prop}
    (hf : (f s).toLedger = s.toLedger) (hQ : Q (.ok ()) (f s)) :
    (Coro.update f).wp (terms x permit i) Q s := by
  rw [Coro.wp_update]
  refine ⟨?_, hQ⟩
  change Guar i s.toLedger (f s).toLedger
  rw [hf]
  exact .refl _ _

theorem wp_acquire {s : Run} {Q : Except Exc Unit → Run → Prop} (hs : s.toLedger.Ok x permit)
    (hQ : Leaves i permit x s.toLedger Q) : (acquire i).wp (terms x permit i) Q s := by
  unfold acquire
  rw [Coro.wp_bind, Coro.wp_read, Coro.outcome_ok]
  split
  · exact wp_update_of_eq rfl (hQ _ _ (.refl _ _) hs (passed_ok _))
  · rw [Coro.wp_bind]
    refine wp_update_of_eq rfl ?_
    refine wp_ask hs fun s₁ m r s' hr hs' heq _ ha => hQ r s' hr hs' ?_
    rcases answer_cases ha with ⟨-, -, -, rfl, -⟩ | ⟨-, -, ha⟩
    · simp
    · replace ha := (ordinary_eq_some ha).2
      split at ha <;> cases ha
      simp

/-- The progress callback returns, or its failure is swallowed; only a cancellation of the
task that waits for it goes on. -/
theorem wp_swallow_deliver {e : RelayEvent} {s : Run} {Q : Except Exc Unit → Run → Prop}
    (hs : s.toLedger.Ok x permit) (hQ : Leaves i permit x s.toLedger Q) :
    (swallow (deliver e)).wp (terms x permit i) Q s := by
  unfold swallow deliver
  rw [Coro.wp_tryExcept, Coro.wp_bind]
  refine wp_update_of_eq rfl ?_
  refine wp_ask hs fun s₁ m r s' hr hs' heq _ ha => ?_
  cases r with
  | ok a => exact hQ _ _ hr hs' (passed_ok _)
  | error err =>
      simp only [Coro.outcome_error]
      split
      · exact hQ _ _ hr hs' (passed_ok _)
      · rename_i herr
        refine hQ _ _ hr hs' ?_
        rcases answer_cases ha with ⟨-, -, -, h, -⟩ | ⟨-, -, ha⟩
        · cases h
          simp
        · exact absurd ((answerEmit_cases ha).2 err rfl) herr

/-- Reporting an event leaves the records to the others. -/
theorem wp_event {data : EventData} {done : Bool} {s : Run} {Q : Except Exc Unit → Run → Prop}
    (hs : s.toLedger.Ok x permit) (hQ : Leaves i permit x s.toLedger Q) :
    (event x i data done).wp (terms x permit i) Q s := by
  unfold event
  rw [Coro.wp_bind]
  refine wp_update_of_eq rfl ?_
  rw [Coro.outcome_ok]
  split
  · rw [Coro.wp_bind, Coro.wp_read, Coro.outcome_ok, Coro.wp_bind]
    refine wp_acquire hs fun r s' hr hs' hp => ?_
    cases r with
    | error e => exact hQ _ _ hr hs' (by simpa using hp)
    | ok a =>
        rw [Coro.outcome_ok, Coro.wp_tryFinally]
        refine wp_swallow_deliver hs' fun r' s'' hr' hs'' hp' => ?_
        exact wp_update_of_eq rfl (hQ _ _ (hr.trans hr') hs'' hp')
  · exact hQ _ _ (.refl _ _) hs (passed_ok _)

end HorizonRelay
