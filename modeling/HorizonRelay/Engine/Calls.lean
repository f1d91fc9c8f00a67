import HorizonRelay.Engine.Contract

/-!
# Model calls among the tasks of a run

The rule of `callWithRecord`: a cloud call is charged or refused; a call that is made
stands in the records from its request on, ends in one way, and is otherwise left to the
others.  What a caller must show is that the records stay `Ledger.Ok` with the new call in
them (`CallRule`).

## Main definitions

* `charge` — the budget after a call on a tier.
* `Ledger.withCall`, `Ledger.putCall` — the records with a new call, or with a call changed.
* `CallRule`, `Call.EndedAs` — what a caller shows, and what it gets.

## Main results

* `wp_callWithRecord`, `wp_call` — the rules of model calls.
-/

namespace HorizonRelay

open Py Coop

variable {x : Setup} {permit : Permit} {i : Thread}

/-- The budget after a call on a tier: only the cloud costs. -/
def charge (x : Setup) (tier : Tier) (op : Operation) (b : CloudBudget) :
    Except Exc CloudBudget :=
  if tier = .cloud then b.spent x.limits op else .ok b

/-- The records with a new call, paid for. -/
def Ledger.withCall (b : CloudBudget) (c : Call) (l : Ledger) : Ledger :=
  { l with budget := b, calls := l.calls ++ [c] }

/-- The records with call `k` changed. -/
def Ledger.putCall (k : ℕ) (c : Call) (l : Ledger) : Ledger :=
  { l with calls := l.calls.set k c }

@[simp] theorem withCall_getElem? (l : Ledger) (b : CloudBudget) (c : Call) :
    (l.withCall b c).calls[l.calls.length]? = some c := by
  simp [Ledger.withCall]

@[simp] theorem putCall_withCall (l : Ledger) (b : CloudBudget) (c c' : Call) :
    (l.withCall b c).putCall l.calls.length c' = l.withCall b c' := by
  simp [Ledger.withCall, Ledger.putCall]

/-- An element of a list to which one was added. -/
theorem getElem?_concat_cases {α : Type} {l : List α} {c d : α} {k : ℕ}
    (h : (l ++ [d])[k]? = some c) : l[k]? = some c ∨ k = l.length ∧ c = d := by
  rcases Nat.lt_or_ge k l.length with hk | hk
  · rw [List.getElem?_append_left hk] at h
    exact .inl h
  · rw [List.getElem?_append_right hk] at h
    obtain ⟨hlt, rfl⟩ := List.getElem?_eq_some_iff.mp h
    rw [List.length_singleton] at hlt
    exact .inr ⟨by omega, by simp⟩

theorem modify_eq_set {α : Type} {as : List α} {k : ℕ} {a : α} (f : α → α)
    (h : as[k]? = some a) : as.modify k f = as.set k (f a) := by
  apply List.ext_getElem?
  intro j
  rw [List.getElem?_modify, List.getElem?_set]
  by_cases hj : k = j
  · subst hj
    rw [if_pos rfl, if_pos (List.getElem?_eq_some_iff.mp h).1, h]
    simp
  · simp [hj]

theorem setCall_toLedger {s : Run} {k : ℕ} {c : Call} (f : Call → Call)
    (h : s.calls[k]? = some c) : (s.setCall k f).toLedger = s.toLedger.putCall k (f c) := by
  simp only [Run.setCall, Ledger.putCall, modify_eq_set f h]

/-! ## Frames -/

/-- A task that may change the records. -/
def Active (l : Ledger) : Thread → Prop
  | .main => True
  | .job n => l.running n = true
  | .follower _ => False

theorem sameCalls_withCall {j : Thread} {l : Ledger} {b : CloudBudget} {c : Call}
    (h : j ≠ c.thread) : SameCalls j l (l.withCall b c) := by
  intro k d hd
  simp only [Ledger.withCall]
  rcases Nat.lt_trichotomy k l.calls.length with hk | rfl | hk
  · rw [List.getElem?_append_left hk]
  · simp only [List.getElem?_length, List.getElem?_concat_length, Option.some.injEq,
      reduceCtorEq, false_iff]
    rintro rfl
    exact h hd.symm
  · rw [List.getElem?_eq_none (by omega), List.getElem?_eq_none (by simp; omega)]

theorem sameCalls_putCall {j : Thread} {l : Ledger} {k : ℕ} {c c' : Call}
    (hc : l.calls[k]? = some c) (h : j ≠ c.thread) (h' : c'.thread = c.thread) :
    SameCalls j l (l.putCall k c') := by
  intro m d hd
  simp only [Ledger.putCall, List.getElem?_set]
  by_cases hm : k = m
  · subst hm
    rw [if_pos rfl, if_pos (List.getElem?_eq_some_iff.mp hc).1, hc]
    simp only [Option.some.injEq]
    constructor
    · rintro rfl
      exact absurd hd.symm h
    · rintro rfl
      exact absurd (hd.symm.trans h') h
  · rw [if_neg hm]

theorem keeps_withCall (l : Ledger) (b : CloudBudget) (c : Call) : Keeps l (l.withCall b c) := by
  intro k d hd
  refine ⟨d, ?_, rfl, rfl, rfl, fun _ h => h⟩
  simp only [Ledger.withCall]
  rw [List.getElem?_append_left (List.getElem?_eq_some_iff.mp hd).1, hd]

theorem keeps_putCall {l : Ledger} {k : ℕ} {i : Thread} {tier : Tier} {p : Payload}
    {c c' : Call} (hk : l.calls[k]? = some c) (hc : c.MadeBy i tier p) (hc' : c'.MadeBy i tier p)
    (hend : ∀ r, c.ended = some r → c'.ended = some r) : Keeps l (l.putCall k c') := by
  intro m d hd
  simp only [Ledger.putCall, List.getElem?_set]
  by_cases hm : k = m
  · subst hm
    cases hk.symm.trans hd
    rw [if_pos rfl, if_pos (List.getElem?_eq_some_iff.mp hd).1]
    exact ⟨c', rfl, hc'.thread.trans hc.thread.symm, hc'.payload.trans hc.payload.symm,
      hc'.tier.trans hc.tier.symm, hend⟩
  · rw [if_neg hm]
    exact ⟨d, hd, rfl, rfl, rfl, fun _ h => h⟩

/-- Changing the calls and the budget only is what a running worker may do. -/
theorem jobStep_of_calls {n : ℕ} {l l' : Ledger} (hn : l.running n = true)
    (h : l' = { l with calls := l'.calls, budget := l'.budget })
    (hb : l.budget.Grown l'.budget) (hk : Keeps l l')
    (hcalls : ∀ j, j ≠ .job n → SameCalls j l l') : JobStep n l l' := by
  rw [h] at hcalls hk ⊢
  exact
    { running := hn, calls := hcalls, history := hk, budget := hb, grows := .refl _
      others := fun _ _ => rfl
      route := rfl, verdicts := rfl, skipped := rfl, plan := rfl, outcome := rfl
      jobs := fun _ _ => rfl, tasks := rfl, batches := rfl }

/-- Changing the calls and the budget only is what an active task may do. -/
theorem guar_of_calls {l l' : Ledger} (hi : Active l i)
    (h : l' = { l with calls := l'.calls, budget := l'.budget })
    (hb : l.budget.Grown l'.budget) (hk : Keeps l l')
    (hcalls : ∀ j, j ≠ i → SameCalls j l l') : Guar i l l' := by
  cases i with
  | main =>
      rw [h] at hcalls hk ⊢
      exact { calls := hcalls, history := hk, budget := hb, grows := .refl _, busy := fun _ => rfl
              plan := fun _ h => h, jobs := ⟨[], by simp⟩ }
  | job n => exact .inr (jobStep_of_calls hi h hb hk hcalls)
  | follower k => exact absurd hi id

/-- An accepted charge only adds. -/
theorem grown_of_charge {tier : Tier} {op : Operation} {b b' : CloudBudget}
    (h : charge x tier op b = .ok b') : b.Grown b' := by
  unfold charge at h
  split at h
  · exact CloudBudget.grown_of_spent h
  · cases h
    exact .refl _

theorem guar_withCall {l : Ledger} {b : CloudBudget} {c : Call} (hi : Active l i)
    (hb : l.budget.Grown b) (hc : c.thread = i) : Guar i l (l.withCall b c) :=
  guar_of_calls hi rfl hb (keeps_withCall l b c) fun _ hj => sameCalls_withCall (hc ▸ hj)

theorem guar_budget {l : Ledger} {b : CloudBudget} (hi : Active l i) (hb : l.budget.Grown b) :
    Guar i l { l with budget := b } :=
  guar_of_calls hi rfl hb (.refl l) fun j _ => .refl j l

theorem guar_putCall {l : Ledger} {k : ℕ} {tier : Tier} {p : Payload} {c c' : Call}
    (hi : Active l i) (hk : l.calls[k]? = some c) (hc : c.MadeBy i tier p)
    (hc' : c'.MadeBy i tier p) (hend : ∀ r, c.ended = some r → c'.ended = some r) :
    Guar i l (l.putCall k c') :=
  guar_of_calls hi rfl (.refl _) (keeps_putCall hk hc hc' hend) fun _ hj =>
    sameCalls_putCall hk (hc.thread ▸ hj) (hc'.thread.trans hc.thread.symm)

@[simp] theorem mine_withCall (l : Ledger) (b : CloudBudget) (c : Call) :
    (l.withCall b c).mine c.thread = l.mine c.thread ++ [c] := by
  simp [Ledger.mine, Ledger.withCall]

/-- A call of one's own stands where it was made. -/
theorem Rely.getElem?_mine {l l' : Ledger} (h : Rely i l l') (hi : Active l i) {k : ℕ} {c : Call}
    (hc : c.thread = i) (hk : l.calls[k]? = some c) : l'.calls[k]? = some c := by
  cases i with
  | main => exact (h.calls k c hc).mp hk
  | job n => exact (h.1 k c hc).mp hk
  | follower k => exact absurd hi id

theorem Rely.active {l l' : Ledger} (h : Rely i l l') (hi : Active l i) : Active l' i := by
  cases i with
  | main => trivial
  | job n => exact (h.2 hi).running.trans hi
  | follower k => exact absurd hi id

theorem SameCalls.putCall {l l' : Ledger} (h : SameCalls i l l') {k : ℕ} {c : Call}
    (c' : Call) (hc : c.thread = i) (hk : l.calls[k]? = some c) :
    SameCalls i (l.putCall k c') (l'.putCall k c') := by
  intro m d hd
  have hk' := (h k c hc).mp hk
  simp only [Ledger.putCall, List.getElem?_set]
  by_cases hm : k = m
  · rw [if_pos hm, if_pos hm, if_pos (hm ▸ (List.getElem?_eq_some_iff.mp hk).1),
      if_pos (hm ▸ (List.getElem?_eq_some_iff.mp hk').1)]
  · rw [if_neg hm, if_neg hm]
    exact h m d hd

/-- What the others do, they do whatever becomes of one's own call. -/
theorem Rely.putCall {l l' : Ledger} (h : Rely i l l') (hi : Active l i) {k : ℕ} {c : Call}
    (c' : Call) (hc : c.thread = i) (hk : l.calls[k]? = some c) :
    Rely i (l.putCall k c') (l'.putCall k c') := by
  cases i with
  | main =>
      exact
        { idle := fun hn => by rw [h.idle hn]
          calls := h.calls.putCall c' hc hk
          grows := h.grows, route := h.route, verdicts := h.verdicts, skipped := h.skipped
          plan := h.plan, outcome := h.outcome, tasks := h.tasks
          batches := h.batches, done := h.done }
  | job n =>
      refine ⟨h.1.putCall c' hc hk, fun hn => ?_⟩
      exact
        { job := (h.2 hi).job, calls := (h.2 hi).calls.putCall c' hc hk
          budget := (h.2 hi).budget, grows := (h.2 hi).grows, result := (h.2 hi).result }
  | follower k => trivial

/-! ## The rule -/

/-- How a call ended, for its caller: a value means that it was completed with that value;
an error is its own, or the cancellation of its caller. -/
def Call.EndedAs (c : Call) (k : ℕ) (r : Except Exc (Json × CallRecord)) : Prop :=
  match r with
  | .ok (v, record) => c.ended = some (.ok v) ∧ record = c.record
  | .error e => c.ended.isSome ∧
      (e = cancelledError ∨ c.ended = some (.error e) ∧ e.call = some k)

/-- What a caller shows to make a call: the records are fine with the call in them, while
it is under way and however it ends. -/
structure CallRule (x : Setup) (permit : Permit) (i : Thread) (tier : Tier) (p : Payload)
    (l : Ledger) : Prop where
  active : Active l i
  add : ∀ b c, charge x tier p.operation l.budget = .ok b → c.MadeBy i tier p →
    c.ended = none → (l.withCall b c).Ok x permit
  put : ∀ b c l' c', charge x tier p.operation l.budget = .ok b → c.MadeBy i tier p →
    Rely i (l.withCall b c) l' → l'.Ok x permit → c'.MadeBy i tier p →
    (∀ r, c.ended = some r → c'.ended = some r) → c'.Permitted permit →
    (l'.putCall l.calls.length c').Ok x permit

variable {tier : Tier} {p : Payload} {l : Ledger} {b : CloudBudget} {c : Call}

theorem Call.madeBy_start (s : Run) (i : Thread) (tier : Tier) (p : Payload) :
    Call.MadeBy i tier p (s.newCall i tier p) where
  thread := rfl
  payload := rfl
  tier := rfl
  recorded := ⟨rfl, rfl, rfl, rfl⟩

/-- Changing what the record says about the call's progress. -/
theorem Call.MadeBy.congr (h : c.MadeBy i tier p) {f : CallRecord → CallRecord}
    (hf : ∀ r : CallRecord, (f r).tier = r.tier ∧ (f r).operation = r.operation ∧
      (f r).taskId = r.taskId ∧ (f r).attempt = r.attempt ∧ (f r).forTier = r.forTier)
    (e : Option (Except Exc Json)) :
    Call.MadeBy i tier p { c with record := f c.record, ended := e } where
  thread := h.thread
  payload := h.payload
  tier := (hf _).1.trans h.tier
  recorded :=
    { operation := (hf _).2.1.trans h.recorded.operation
      taskId := (hf _).2.2.1.trans h.recorded.taskId
      attempt := (hf _).2.2.2.1.trans h.recorded.attempt
      forTier := (hf _).2.2.2.2.trans h.recorded.forTier }

/-- The place of a call under way among the records the others have moved on. -/
structure Made (x : Setup) (permit : Permit) (i : Thread) (tier : Tier) (p : Payload)
    (l : Ledger) (b : CloudBudget) (c : Call) (l' : Ledger) : Prop where
  made : c.MadeBy i tier p
  rely : Rely i (l.withCall b c) l'
  ok : l'.Ok x permit

theorem active_withCall (h : Active l i) : Active (l.withCall b c) i := by
  cases i <;> exact h

theorem Made.getElem? {l' : Ledger} (h : Made x permit i tier p l b c l') (hi : Active l i) :
    l'.calls[l.calls.length]? = some c :=
  h.rely.getElem?_mine (active_withCall hi) h.made.thread (withCall_getElem? l b c)

theorem Made.active {l' : Ledger} (h : Made x permit i tier p l b c l') (hi : Active l i) :
    Active l' i :=
  h.rely.active (active_withCall hi)

theorem Made.of_rely {l' l'' : Ledger} (h : Made x permit i tier p l b c l')
    (hr : Rely i l' l'') (hok : l''.Ok x permit) : Made x permit i tier p l b c l'' :=
  ⟨h.made, h.rely.trans hr, hok⟩

/-- A change to a call under way. -/
theorem step_setCall {s : Run} {f : Call → Call} {Q : Except Exc Unit → Run → Prop}
    (rule : CallRule x permit i tier p l) (hb : charge x tier p.operation l.budget = .ok b)
    (h : Made x permit i tier p l b c s.toLedger) (hf : (f c).MadeBy i tier p)
    (hend : ∀ r, c.ended = some r → (f c).ended = some r) (hp : (f c).Permitted permit)
    (hQ : ∀ s', Made x permit i tier p l b (f c) s'.toLedger → Q (.ok ()) s') :
    (terms x permit i).guar s (s.setCall l.calls.length f) ∧
      Q (.ok ()) (s.setCall l.calls.length f) := by
  have hk := h.getElem? rule.active
  have heq := setCall_toLedger f hk
  constructor
  · change Guar i s.toLedger (s.setCall l.calls.length f).toLedger
    rw [heq]
    exact guar_putCall (h.active rule.active) hk h.made hf hend
  · refine hQ _ ⟨hf, ?_, ?_⟩
    · rw [heq, ← putCall_withCall l b c]
      exact h.rely.putCall (active_withCall rule.active) _ h.made.thread (withCall_getElem? l b c)
    · rw [heq]
      exact rule.put b c _ _ hb h.made h.rely h.ok hf hend hp

theorem wp_reportCall {k : ℕ} {s : Run} {Q : Except Exc Unit → Run → Prop}
    (hs : s.toLedger.Ok x permit) (hQ : Leaves i permit x s.toLedger Q) :
    (reportCall x i k).wp (terms x permit i) Q s := by
  unfold reportCall
  rw [Coro.wp_bind, Coro.wp_read, Coro.outcome_ok]
  split
  · exact wp_event hs hQ
  · exact hQ _ _ (.refl _ _) hs (passed_ok _)

theorem wp_watch {k : ℕ} {s : Run} {Q : Except Exc Unit → Run → Prop}
    (hQ : ∀ s', s'.toLedger = s.toLedger → Q (.ok ()) s') :
    (watch x k).wp (terms x permit i) Q s := by
  unfold watch
  split
  · exact wp_update_of_eq rfl (hQ _ rfl)
  · exact hQ _ rfl

theorem wp_unwatch {k : ℕ} {s : Run} {Q : Except Exc Unit → Run → Prop}
    (hQ : ∀ s', s'.toLedger = s.toLedger → Q (.ok ()) s') :
    (unwatch k).wp (terms x permit i) Q s := by
  unfold unwatch
  rw [Coro.wp_bind, Coro.wp_read, Coro.outcome_ok]
  split
  · exact wp_update_of_eq rfl (hQ _ rfl)
  · exact hQ _ rfl

/-- The provider's part of a call that was made: it is completed with a value, or an error
of its own goes on. -/
theorem wp_complete {s : Run} {Q : Except Exc Json → Run → Prop}
    (rule : CallRule x permit i tier p l) (hb : charge x tier p.operation l.budget = .ok b)
    (h : Made x permit i tier p l b c s.toLedger) (hnone : c.ended = none)
    (ok : ∀ v s', ∀ c', c'.Permitted permit → c'.ended = some (.ok v) →
      Made x permit i tier p l b c' s'.toLedger → Q (.ok v) s')
    (error : ∀ e s', Made x permit i tier p l b c s'.toLedger → permit tier p (.error e) →
      (e = cancelledError ∨ e.isException = true ∧ e.call = some l.calls.length) →
      Q (.error e) s') :
    (complete x l.calls.length p.operation).wp (terms x permit i) Q s := by
  unfold complete
  rw [Coro.wp_bind]
  refine wp_watch fun s₀ h₀ => ?_
  rw [← h₀] at h
  rw [Coro.outcome_ok, Coro.wp_bind]
  refine wp_ask h.ok fun s₁ m r s' hr hs' heq hallow ha => ?_
  have h' := h.of_rely hr hs'
  have hk : s₁.calls[l.calls.length]? = some c := by
    have := h'.getElem? rule.active
    rwa [heq] at this
  have hpermit : permit tier p (endOf p.operation l.calls.length m) := by
    have := hallow _ c rfl hk
    rwa [h.made.tier, h.made.payload] at this
  rcases answer_complete_cases ha with ⟨reply, rfl, rfl⟩ | ⟨e, rfl, hend, he⟩
  · rw [Coro.outcome_ok]
    cases reply with
    | none => exact error _ _ h' hpermit (.inr ⟨rfl, rfl⟩)
    | some reply =>
        simp only [endOf] at hpermit
        simp only [takeReply]
        by_cases hm : reply.model.isEmpty = true
        · rw [if_pos hm] at hpermit ⊢
          exact error _ _ h' hpermit (.inr ⟨rfl, rfl⟩)
        · rw [if_neg hm] at hpermit ⊢
          rw [Coro.wp_bind, Coro.wp_update]
          have hpermitted : Call.Permitted permit { c with
              record := CallRecord.complete x.lib p.operation reply c.record
              ended := some (.ok (openReply p.operation reply).1) } := by
            intro r hr
            cases hr
            change permit c.record.tier c.payload _
            rw [h'.made.tier, h'.made.payload]
            exact hpermit
          refine step_setCall rule hb h' ?_ (by simp [hnone]) hpermitted fun s'' h'' =>
            ok _ _ _ hpermitted rfl h''
          exact h'.made.congr (f := CallRecord.complete x.lib p.operation reply)
            (fun r => ⟨rfl, rfl, rfl, rfl, rfl⟩) _
  · rw [hend] at hpermit
    exact error e s' h' hpermit he

/-- A call that raised is recorded as failed or cancelled, and the error goes on. -/
theorem wp_callFailed {e : Exc} {s : Run} {Q : Except Exc Json → Run → Prop}
    (rule : CallRule x permit i tier p l) (hb : charge x tier p.operation l.budget = .ok b)
    (h : Made x permit i tier p l b c s.toLedger) (hnone : c.ended = none)
    (hpermit : permit tier p (.error e))
    (he : e = cancelledError ∨ e.isException = true ∧ e.call = some l.calls.length)
    (hQ : ∀ c' e' s', Made x permit i tier p l b c' s'.toLedger → c'.Permitted permit →
      c'.EndedAs l.calls.length (.error e') → Q (.error e') s') :
    (callFailed x i l.calls.length e).wp (terms x permit i) Q s := by
  have hend : ∀ f : CallRecord → CallRecord, (∀ r : CallRecord, (f r).tier = r.tier ∧
      (f r).operation = r.operation ∧ (f r).taskId = r.taskId ∧ (f r).attempt = r.attempt ∧
      (f r).forTier = r.forTier) →
      let c' : Call := { c with record := f c.record, ended := some (.error e) }
      c'.MadeBy i tier p ∧ c'.Permitted permit := by
    intro f hf
    refine ⟨h.made.congr hf _, ?_⟩
    intro r hr
    cases hr
    change permit (f c.record).tier c.payload _
    rw [(hf _).1, h.made.tier, h.made.payload]
    exact hpermit
  unfold callFailed
  rw [Coro.wp_bind, Coro.wp_read, Coro.outcome_ok]
  by_cases hexc : e.isException = true
  · rw [if_pos hexc, Coro.wp_bind]
    have hcall : e.call = some l.calls.length := by
      rcases he with rfl | he
      · cases hexc
      · exact he.2
    obtain ⟨hmade, hpermitted⟩ := hend (fun r =>
      { r with
        outcome := .failed
        elapsedMs := s.elapsed l.calls.length
        output := some ([], ((s.live l.calls.length).text).take liveLimit) })
      fun r => ⟨rfl, rfl, rfl, rfl, rfl⟩
    rw [Coro.wp_update]
    refine step_setCall rule hb h hmade (by simp [hnone]) hpermitted fun s' h' => ?_
    rw [Coro.outcome_ok, Coro.wp_bind]
    refine wp_reportCall h'.ok fun r s'' hr hs'' hp => ?_
    cases r with
    | ok a => exact hQ _ _ _ (h'.of_rely hr hs'') hpermitted ⟨rfl, .inr ⟨rfl, hcall⟩⟩
    | error e' => exact hQ _ _ _ (h'.of_rely hr hs'') hpermitted ⟨rfl, .inl (by simpa using hp)⟩
  · rw [if_neg hexc, Coro.wp_bind]
    have hcancel : e = cancelledError := by
      rcases he with he | he
      · exact he
      · exact absurd he.1 hexc
    obtain ⟨hmade, hpermitted⟩ := hend (fun r =>
      { r with outcome := .cancelled, elapsedMs := s.elapsed l.calls.length })
      fun r => ⟨rfl, rfl, rfl, rfl, rfl⟩
    rw [Coro.wp_update]
    refine step_setCall rule hb h hmade (by simp [hnone]) hpermitted fun s' h' => ?_
    exact hQ _ _ _ h' hpermitted ⟨rfl, .inl hcancel⟩

/-- Charging a call: it is paid for, or refused with nothing changed. -/
theorem wp_spend {s : Run} {op : Operation} {Q : Except Exc Unit → Run → Prop}
    (hi : Active s.toLedger i)
    (refused : ∀ e, charge x tier op s.budget = .error e → Q (.error e) s)
    (paid : ∀ b s', charge x tier op s.budget = .ok b → s'.now = s.now →
      s'.toLedger = { s.toLedger with budget := b } → Q (.ok ()) s') :
    (spend x tier op).wp (terms x permit i) Q s := by
  unfold spend
  rw [Coro.wp_bind, Coro.wp_read, Coro.outcome_ok]
  by_cases ht : tier = .cloud
  · rw [if_pos ht]
    simp only [charge, if_pos ht] at refused paid
    rw [Coro.wp_bind, Coro.wp_update, CloudBudget.spend_eq]
    cases hb : s.budget.spent x.limits op with
    | error e => exact ⟨guar_budget hi (.refl _), refused e hb⟩
    | ok b =>
        exact ⟨guar_budget hi (CloudBudget.grown_of_spent hb), paid b _ hb rfl rfl⟩
  · rw [if_neg ht]
    simp only [charge, if_neg ht] at paid
    exact paid _ _ rfl rfl rfl

/-- The part of a model call after it was paid for. -/
theorem wp_made {s : Run} {Q : Except Exc (Json × CallRecord) → Run → Prop}
    (rule : CallRule x permit i tier p l) (hb : charge x tier p.operation l.budget = .ok b)
    (h : Made x permit i tier p l b c s.toLedger) (hnone : c.ended = none)
    (made : ∀ c r s', Made x permit i tier p l b c s'.toLedger → c.Permitted permit →
      c.EndedAs l.calls.length r → Q r s') :
    Coro.wp (terms x permit i) (do
      let value ← ((complete x l.calls.length p.operation).tryExcept
        (callFailed x i l.calls.length)).tryFinally (unwatch l.calls.length)
      Coro.update fun s => s.setCall l.calls.length fun c =>
        { c with record := { c.record with elapsedMs := s.elapsed l.calls.length } }
      reportCall x i l.calls.length
      let s ← Coro.read
      pure (value, (s.recordAt l.calls.length).getD (.start tier p 0))) Q s := by
  rw [Coro.wp_bind, Coro.wp_tryFinally, Coro.wp_tryExcept]
  refine wp_complete rule hb h hnone (fun v s' c' hp' hv h' => ?_) (fun e s' h' hp he => ?_)
  · refine wp_unwatch fun s₁ h₁ => ?_
    rw [← h₁] at h'
    rw [Coro.outcome_ok, Coro.outcome_ok, Coro.wp_bind, Coro.wp_update]
    have hpermitted : Call.Permitted permit { c' with
        record := { c'.record with elapsedMs := s₁.elapsed l.calls.length } } := hp'
    refine step_setCall rule hb h'
      (h'.made.congr (f := fun r => { r with elapsedMs := s₁.elapsed l.calls.length })
        (fun r => ⟨rfl, rfl, rfl, rfl, rfl⟩) c'.ended) (fun _ h => h) hpermitted
      fun s₂ h₂ => ?_
    rw [Coro.outcome_ok, Coro.wp_bind]
    refine wp_reportCall h₂.ok fun r s₃ hr hs₃ hp₃ => ?_
    have h₃ := h₂.of_rely hr hs₃
    cases r with
    | error e =>
        refine made _ _ _ h₃ hpermitted ⟨?_, .inl (by simpa using hp₃)⟩
        exact hv ▸ rfl
    | ok a =>
        refine made _ _ _ h₃ hpermitted ⟨hv, ?_⟩
        simp only [Run.recordAt, h₃.getElem? rule.active, Option.map_some, Option.getD_some]
  · refine wp_callFailed rule hb h' hnone hp he fun c' e' s₁ h₁ hp₁ hend => ?_
    refine wp_unwatch fun s₂ h₂ => ?_
    rw [← h₂] at h₁
    exact made _ _ _ h₁ hp₁ hend

/-- **The rule of model calls.** A cloud call may be refused, with nothing changed.
Otherwise the call is made and ends in one way, and the rest is the others' doing. -/
theorem wp_callWithRecord {s : Run} {Q : Except Exc (Json × CallRecord) → Run → Prop}
    (rule : CallRule x permit i tier p s.toLedger)
    (refused : ∀ e, charge x tier p.operation s.budget = .error e → Q (.error e) s)
    (made : ∀ b c r s', charge x tier p.operation s.budget = .ok b →
      Made x permit i tier p s.toLedger b c s'.toLedger → c.Permitted permit →
      c.EndedAs s.calls.length r → Q r s') :
    (callWithRecord x i tier p).wp (terms x permit i) Q s := by
  unfold callWithRecord
  rw [Coro.wp_bind]
  refine wp_spend rule.active refused fun b s' hb hnow hl => ?_
  rw [Coro.outcome_ok, Coro.wp_bind, Coro.wp_read, Coro.outcome_ok, Coro.wp_bind,
    Coro.wp_update]
  have hlen : s'.calls.length = s.calls.length := by rw [hl]
  have hadd : (Run.addCall i tier p s').toLedger =
      s.toLedger.withCall b (s'.newCall i tier p) := by
    have : (Run.addCall i tier p s').toLedger =
        s'.toLedger.withCall s'.budget (s'.newCall i tier p) := rfl
    rw [this, hl]
    rfl
  have hmade := Call.madeBy_start s' i tier p
  constructor
  · change Guar i s'.toLedger (Run.addCall i tier p s').toLedger
    rw [hadd, hl]
    exact guar_withCall (l := { s.toLedger with budget := b })
      (by cases i <;> exact rule.active) (.refl _) hmade.thread
  · rw [Coro.outcome_ok]
    have h : Made x permit i tier p s.toLedger b
        (s'.newCall i tier p)
        (Run.addCall i tier p s').toLedger := by
      refine ⟨hmade, ?_, ?_⟩
      · rw [hadd]
        exact .refl _ _
      · rw [hadd]
        exact rule.add b _ hb hmade rfl
    rw [hlen]
    exact wp_made rule hb h rfl fun c r s'' => made b c r s'' hb

/-- How a call ended, for a caller who wants its value only. -/
def Call.EndedWith (c : Call) (k : ℕ) (r : Except Exc Json) : Prop :=
  match r with
  | .ok v => c.ended = some (.ok v)
  | .error e => c.ended.isSome ∧
      (e = cancelledError ∨ c.ended = some (.error e) ∧ e.call = some k)

/-- The rule of model calls, for their value. -/
theorem wp_call {s : Run} {Q : Except Exc Json → Run → Prop}
    (rule : CallRule x permit i tier p s.toLedger)
    (refused : ∀ e, charge x tier p.operation s.budget = .error e → Q (.error e) s)
    (made : ∀ b c r s', charge x tier p.operation s.budget = .ok b →
      Made x permit i tier p s.toLedger b c s'.toLedger → c.Permitted permit →
      c.EndedWith s.calls.length r → Q r s') :
    (call x i tier p).wp (terms x permit i) Q s := by
  unfold call
  rw [Coro.wp_bind]
  refine wp_callWithRecord rule refused fun b c r s' hb h hp hend => ?_
  cases r with
  | ok vr => exact made b c (.ok vr.1) s' hb h hp hend.1
  | error e => exact made b c (.error e) s' hb h hp hend

end HorizonRelay
