import HorizonRelay.Engine.Judgment
import HorizonRelay.Runs.Routing
import HorizonRelay.Runs.Writes

/-!
# The verdicts of a run

While the provider answers what is asked for a verdict as a function says, the cascade of a run
comes to what it comes to by itself: events, callbacks, other tasks and the order of steps leave
the verdicts alone.

## Main definitions

* `Replies` — the provider answers as a function says.
* `Judged` — the verdicts so far are those of the cascade by itself.

## Main results

* `judged_of_reach` — they are, in every reachable state.
* `routed_by_replies` — where a run answers depends on the replies alone.
-/

namespace HorizonRelay

open Py Coop

variable {x : Setup} {f : Tier → Payload → Choice} {s s' : Run} {c c' : State}

/-- What is asked for a verdict is answered as `f` says, unless the call is cancelled. -/
def AnsweredBy (f : Tier → Payload → Choice) (op : Op) (s : Run) (m : Choice) : Prop :=
  ∀ k d, op = .complete k → s.calls[k]? = some d → d.payload.forTier.isSome →
    m = .cancel ∨ m = f d.record.tier d.payload

/-- The provider answers what is asked for a verdict as `f` says. -/
def Replies (f : Tier → Payload → Choice) (c : State) (l : Label Thread Choice Move) : Prop :=
  ∀ i m op cont, l = .resume i m → c.pool i = .await op cont → AnsweredBy f op c.shared m

/-- The verdicts made and told are those of the cascade by itself. -/
structure Judged (x : Setup) (f : Tier → Payload → Choice) (s : Run) : Prop where
  verdicts : ∀ v ∈ s.verdicts, x.passesOver v.tier = false ∧ x.judged f v.tier = .ok v
  skipped : ∀ t ∈ s.skipped, x.passesOver t = true
  heard : ∀ t v w, .localVerdict t v w ∈ told s.log → t ∈ x.locals ∧ x.judged f t = .ok v
  announced : x.emit = true → ∀ v ∈ s.verdicts, ∃ w, .localVerdict v.tier v w ∈ told s.log

namespace Judged

/-- The main flow's calls are the same, nobody judged, and what was told stays told. -/
structure Later (s s' : Run) : Prop where
  calls : SameCalls .main s.toLedger s'.toLedger
  verdicts : s'.verdicts = s.verdicts
  skipped : s'.skipped = s.skipped
  kept : told s.log <+: told s'.log

/-- What the main flow sees of the others: they tell none of its events. -/
structure Beside (s s' : Run) : Prop extends Later s s' where
  heard : ∃ new, told s'.log = told s.log ++ new ∧ ∀ d ∈ new, d.teller ≠ .main

theorem Later.refl (s : Run) : Later s s := ⟨.refl _ _, rfl, rfl, List.prefix_rfl⟩

theorem Later.trans {a b c : Run} (h : Later a b) (h' : Later b c) : Later a c :=
  ⟨h.calls.trans h'.calls, h'.verdicts.trans h.verdicts, h'.skipped.trans h.skipped,
    h.kept.trans h'.kept⟩

theorem Beside.refl (s : Run) : Beside s s := ⟨.refl s, [], by simp, by simp⟩

theorem Beside.trans {a b c : Run} (h : Beside a b) (h' : Beside b c) : Beside a c := by
  obtain ⟨new, hnew, hothers⟩ := h.heard
  obtain ⟨new', hnew', hothers'⟩ := h'.heard
  refine ⟨h.toLater.trans h'.toLater, new ++ new', ?_, fun d hd => ?_⟩
  · rw [hnew', hnew, List.append_assoc]
  · rcases List.mem_append.mp hd with hd | hd
    · exact hothers d hd
    · exact hothers' d hd

theorem later_of_alike (h : s.Alike s') : Later s s' where
  calls k c _ := by
    rw [h.calls]
  verdicts := h.verdicts
  skipped := h.skipped
  kept := by rw [h.told]

theorem beside_of_alike (h : s.Alike s') : Beside s s' :=
  ⟨later_of_alike h, [], by simp [h.told], by simp⟩

theorem beside (h : Judged x f s) (hs : Beside s s') : Judged x f s' := by
  obtain ⟨new, hnew, hothers⟩ := hs.heard
  refine ⟨fun v hv => h.verdicts v (hs.verdicts ▸ hv), fun t ht => h.skipped t (hs.skipped ▸ ht),
    fun t v w hd => ?_, fun hemit v hv => ?_⟩
  · rw [hnew, List.mem_append] at hd
    rcases hd with hd | hd
    · exact h.heard t v w hd
    · exact absurd rfl (hothers _ hd)
  · obtain ⟨w, hw⟩ := h.announced hemit v (hs.verdicts ▸ hv)
    exact ⟨w, hs.kept.subset hw⟩

theorem alike (h : Judged x f s) (hs : s.Alike s') : Judged x f s' := h.beside (beside_of_alike hs)

theorem told_hand (s : Run) (e : RelayEvent) :
    told (s.see (.handed e)).log = told s.log ++ [e.data] := by
  rw [Run.see, told, handed_concat_handed, List.map_append, told, List.map_singleton]

theorem hand (h : Judged x f s) {e : RelayEvent}
    (he : ∀ t v w, e.data = .localVerdict t v w → t ∈ x.locals ∧ x.judged f t = .ok v) :
    Judged x f (s.see (.handed e)) := by
  refine ⟨h.verdicts, h.skipped, fun t v w hd => ?_, fun hemit v hv => ?_⟩
  · rw [told_hand, List.mem_append] at hd
    rcases hd with hd | hd
    · exact h.heard t v w hd
    · exact he t v w (List.mem_singleton.mp hd).symm
  · obtain ⟨w, hw⟩ := h.announced hemit v hv
    exact ⟨w, by rw [told_hand]; exact List.mem_append_left _ hw⟩

/-- **Verdicts are durable**: only the cascade makes any. -/
theorem durable : Durable (Judged x f) where
  congr hs h := h.alike hs
  addCall i tier p h :=
    ⟨h.verdicts, h.skipped, fun t v w hd => h.heard t v w (by rwa [told_addCall] at hd),
      fun hemit v hv => by rw [told_addCall]; exact h.announced hemit v hv⟩
  setCall _ h := ⟨h.verdicts, h.skipped, h.heard, h.announced⟩
  hand hd h := h.hand fun t v w he => by rw [he] at hd; exact hd.elim
  report _ _ he h := h.hand fun t v w hd => by
    rcases he with he | ⟨text, n, he⟩ <;> rw [he] at hd <;> cases hd

/-! ## The outline -/

/-- The outline of the main flow: what the others do leaves its verdicts alone. -/
def hearing (x : Setup) (f : Tier → Payload → Choice) :
    Contract Thread Op Ans Run Exc Result Choice where
  covered i := i = .main
  rely _ := Beside
  guar _ _ _ := True
  inv := Judged x f
  known _ := True
  allow _ op s m := AnsweredBy f op s m
  post _ _ s := Judged x f s

/-- The terms of the main flow. -/
abbrev ears (x : Setup) (f : Tier → Payload → Choice) : Terms Op Ans Run Exc :=
  (hearing x f).terms x.system .main

theorem wp_of_upholds {α : Type} {c : Prog α} (hc : c.Upholds (Judged x f)) (h : Judged x f s) :
    c.wp (ears x f) (fun _ s' => Judged x f s') s :=
  hc.wp h (fun _ _ => trivial) (fun _ h => h) (fun _ _ h hr _ => h.beside hr)
    fun _ _ _ _ ⟨_, ha, _⟩ h => h.alike (alike_answer ha)

theorem wp_ask {op : Op} {Q : Except Exc (Ans op) → Run → Prop} (h : Judged x f s)
    (hQ : ∀ s₁ m r s', Later s s₁ → Later s s' → Judged x f s' →
      answer x .main op s₁ m = some (r, s') → AnsweredBy f op s₁ m → Q r s') :
    (ask op).wp (ears x f) Q s := by
  refine Coro.wp_request op Q s |>.mpr ⟨h, fun s₁ hr _ r s₂ ⟨m, ha, hallow⟩ => ⟨trivial, ?_⟩⟩
  have hsame := alike_answer ha
  exact hQ s₁ m r s₂ hr.toLater (hr.toLater.trans (later_of_alike hsame))
    ((h.beside hr).alike hsame) ha hallow

/-- A program goes by: it leaves the main flow's calls and verdicts, and raises no error of the
relay. -/
def Passes {α : Type} (x : Setup) (f : Tier → Payload → Choice) (s : Run)
    (Q : Except Exc α → Run → Prop) : Prop :=
  ∀ r s', Judged x f s' → Later s s' → (∀ e, r = .error e → e.isRelayError = false) → Q r s'

theorem wp_acquire {Q : Except Exc Unit → Run → Prop} (h : Judged x f s) (hQ : Passes x f s Q) :
    (acquire .main).wp (ears x f) Q s := by
  have hhold : ∀ s : Run, s.Alike (s.hold .main) := fun _ => ⟨rfl, rfl, rfl, rfl⟩
  have hqueue : ∀ s : Run, s.Alike (s.enqueue .main) := fun _ => ⟨rfl, rfl, rfl, rfl⟩
  unfold acquire
  rw [Coro.wp_bind, Coro.wp_read, Coro.outcome_ok]
  split
  · exact ⟨trivial, hQ _ _ (h.alike (hhold s)) (later_of_alike (hhold s)) (by simp)⟩
  · rw [Coro.wp_bind, Coro.wp_update]
    refine ⟨trivial, wp_ask (h.alike (hqueue s)) fun s₁ m r s' _ hl h' ha _ => ?_⟩
    refine hQ _ _ h' ((later_of_alike (hqueue s)).trans hl) fun e he => ?_
    rcases answer_cases ha with ⟨-, -, -, rfl, -⟩ | ⟨-, -, ha⟩
    · cases he
      rfl
    · replace ha := (ordinary_eq_some ha).2
      split at ha <;> cases ha
      cases he

/-- A program tells an event on its way. -/
def Tells (x : Setup) (f : Tier → Payload → Choice) (d : EventData) (s : Run)
    (Q : Except Exc Unit → Run → Prop) : Prop :=
  ∀ r s', Judged x f s' → Later s s' → (∀ e, r = .error e → e.isRelayError = false) →
    (x.emit = true → r = .ok () → d ∈ told s'.log) → Q r s'

theorem wp_swallow_deliver {e : RelayEvent} {Q : Except Exc Unit → Run → Prop} (h : Judged x f s)
    (he : ∀ t v w, e.data = .localVerdict t v w → t ∈ x.locals ∧ x.judged f t = .ok v)
    (hQ : Tells x f e.data s Q) : (swallow (deliver e)).wp (ears x f) Q s := by
  have hsee : Later s (s.see (.handed e)) :=
    ⟨.refl _ _, rfl, rfl, by rw [told_hand]; exact List.prefix_append _ _⟩
  unfold swallow deliver
  rw [Coro.wp_tryExcept, Coro.wp_bind, Coro.wp_update]
  refine ⟨trivial, wp_ask (h.hand he) fun s₁ m r s' _ hl h' ha _ => ?_⟩
  have hlater := hsee.trans hl
  have htold : e.data ∈ told s'.log := hl.kept.subset (by rw [told_hand]; simp)
  cases r with
  | ok a => exact hQ _ _ h' hlater (by simp) fun _ _ => htold
  | error err =>
      rw [Coro.outcome_error]
      split
      · exact hQ _ _ h' hlater (by simp) fun _ _ => htold
      · rename_i hexc
        refine hQ _ _ h' hlater (fun e' he' => ?_) fun _ _ => htold
        obtain rfl : err = e' := Except.error.inj he'
        have hcls : err.cls = .cancelled := by simpa [Exc.isException] using hexc
        simp [Exc.isRelayError, hcls]

theorem wp_tell {d : EventData} {done : Bool} {Q : Except Exc Unit → Run → Prop}
    (h : Judged x f s)
    (hd : ∀ t v w, d = .localVerdict t v w → t ∈ x.locals ∧ x.judged f t = .ok v)
    (hQ : Tells x f d s Q) : (event x .main d done).wp (ears x f) Q s := by
  have hnext : ∀ s : Run, s.Alike (s.nextEvent .main) := fun _ => ⟨rfl, rfl, rfl, rfl⟩
  have hrelease : ∀ s : Run, s.Alike s.release := fun _ => ⟨rfl, rfl, rfl, rfl⟩
  unfold event
  rw [Coro.wp_bind, Coro.wp_update]
  refine ⟨trivial, ?_⟩
  rw [Coro.outcome_ok]
  have hl := later_of_alike (hnext s)
  split
  · rw [Coro.wp_bind, Coro.wp_read, Coro.outcome_ok, Coro.wp_bind]
    refine wp_acquire (h.alike (hnext s)) fun r s' h' hl' hr => ?_
    cases r with
    | error e => exact hQ _ _ h' (hl.trans hl') (by simpa using hr) (by simp)
    | ok a =>
        rw [Coro.outcome_ok, Coro.wp_tryFinally]
        refine wp_swallow_deliver h' hd fun r' s'' h'' hl'' hr' htold => ⟨trivial, ?_⟩
        exact hQ _ _ (h''.alike (hrelease s''))
          ((hl.trans hl').trans (hl''.trans (later_of_alike (hrelease s'')))) hr' htold
  · rename_i hemit
    exact hQ _ _ (h.alike (hnext s)) hl (by simp) fun he => absurd he hemit

/-- **Telling an event goes by.** -/
theorem wp_event {d : EventData} {done : Bool} {Q : Except Exc Unit → Run → Prop}
    (h : Judged x f s) (hd : ∀ t v w, d ≠ .localVerdict t v w)
    (hQ : Passes x f s Q) : (event x .main d done).wp (ears x f) Q s :=
  wp_tell h (fun t v w he => absurd he (hd t v w)) fun r s' h' hl hr _ => hQ r s' h' hl hr

/-! ## Calls for a verdict -/

/-- An error a judge takes for a failed call is what comes of the call. -/
def Fails (x : Setup) (f : Tier → Payload → Choice) (tier : Tier) (p : Payload) (e : Exc) : Prop :=
  e.isRelayError = true →
    ∃ e', x.reply f tier p = .error e' ∧ e'.isRelayError = true ∧ e'.msg = e.msg

theorem repliedWith_of_endOf {lib : StdLib} {op : Operation} {k : ℕ} {m : Choice} {e : Exc}
    (h : endOf op k m = .error e) : ∃ e', repliedWith lib op m = .error e' ∧
      e'.isRelayError = e.isRelayError ∧ e'.msg = e.msg := by
  cases m with
  | reply r =>
      cases r with
      | none =>
          cases h
          exact ⟨_, rfl, rfl, rfl⟩
      | some r =>
          simp only [endOf] at h
          split at h <;> cases h
          rename_i hempty
          exact ⟨_, if_pos hempty, rfl, rfl⟩
  | _ =>
      cases h
      exact ⟨_, rfl, rfl, rfl⟩

/-- The main flow's call `k`. -/
structure Mine (tier : Tier) (p : Payload) (k : ℕ) (c : Call) (s : Run) : Prop where
  here : s.calls[k]? = some c
  thread : c.thread = .main
  payload : c.payload = p
  tier : c.record.tier = tier

section Calls
variable {tier : Tier} {p : Payload} {k : ℕ} {d : Call}

theorem Mine.later (h : Mine tier p k d s) (hl : Later s s') : Mine tier p k d s' :=
  { h with here := (hl.calls k d h.thread).mp h.here }

/-- Changing the call. -/
theorem Mine.set (h : Mine tier p k d s) {g : Call → Call} (hthread : (g d).thread = d.thread)
    (hpay : (g d).payload = d.payload) (htier : (g d).record.tier = d.record.tier) :
    Mine tier p k (g d) (s.setCall k g) where
  here := by simp [Run.setCall, h.here]
  thread := hthread.trans h.thread
  payload := hpay.trans h.payload
  tier := htier.trans h.tier

theorem wp_reportCall {Q : Except Exc Unit → Run → Prop} (h : Judged x f s) (hQ : Passes x f s Q) :
    (reportCall x .main k).wp (ears x f) Q s := by
  unfold reportCall
  rw [Coro.wp_bind, Coro.wp_read, Coro.outcome_ok]
  split
  · exact wp_event h (by simp) hQ
  · exact hQ _ _ h (.refl s) (by simp)

theorem wp_unwatch {Q : Except Exc Unit → Run → Prop} (h : Judged x f s)
    (hQ : ∀ s', Judged x f s' → Later s s' → Q (.ok ()) s') : (unwatch k).wp (ears x f) Q s := by
  have hstop : ∀ s : Run,
      s.Alike ((s.setLive k fun l => { l with stopped := true }).cancel (.follower k)) :=
    fun _ => ⟨rfl, rfl, rfl, rfl⟩
  unfold unwatch
  rw [Coro.wp_bind, Coro.wp_read, Coro.outcome_ok]
  split
  · exact ⟨trivial, hQ _ (h.alike (hstop s)) (later_of_alike (hstop s))⟩
  · exact hQ _ h (.refl s)

/-- The provider's part of a call: what it says is what comes of the call. -/
theorem wp_complete {Q : Except Exc Json → Run → Prop} (h : Judged x f s)
    (hd : Mine tier p k d s) (hfor : p.forTier.isSome)
    (ok : ∀ v s' d', Judged x f s' → Mine tier p k d' s' →
      x.reply f tier p = .ok (v, d'.record.tokenStats) → Q (.ok v) s')
    (error : ∀ e s', Judged x f s' → Mine tier p k d s' → Fails x f tier p e → Q (.error e) s') :
    (complete x k p.operation).wp (ears x f) Q s := by
  have hwatch : ∀ s : Run, s.Alike (s.setLive k fun l => { l with watched := true }) :=
    fun _ => ⟨rfl, rfl, rfl, rfl⟩
  have hrest : ∀ s, Judged x f s → Mine tier p k d s → Coro.wp (ears x f)
      (do
        let reply ← ask (.complete k)
        takeReply x k p.operation reply) Q s := by
    intro s h hd
    rw [Coro.wp_bind]
    refine wp_ask h fun s₁ m r s' hl₁ hl h' ha hallow => ?_
    have hd' := hd.later hl
    have hm : m = .cancel ∨ m = f tier p := by
      have := hallow k d rfl (hd.later hl₁).here (by rwa [hd.payload])
      rwa [hd.tier, hd.payload] at this
    rcases answer_complete_cases ha with ⟨reply, rfl, rfl⟩ | ⟨e, rfl, hend, -⟩
    · have hreply : x.reply f tier p = repliedWith x.lib p.operation (.reply reply) := by
        rw [Setup.reply, ← hm.resolve_left (by simp)]
      rw [Coro.outcome_ok]
      have hinvalid : x.reply f tier p = .error (invalidReply 0) →
          Fails x f tier p (invalidReply k) := fun hr _ => ⟨_, hr, rfl, rfl⟩
      cases reply with
      | none => exact error _ _ h' hd' (hinvalid hreply)
      | some reply =>
          simp only [takeReply]
          by_cases hempty : reply.model.isEmpty = true
          · rw [if_pos hempty]
            exact error _ _ h' hd' (hinvalid (hreply.trans (if_pos hempty)))
          · rw [if_neg hempty]
            refine ⟨trivial, ok _ _ _ (durable.setCall (fun _ => ⟨rfl, rfl, rfl, rfl, rfl⟩) h')
              (hd'.set rfl rfl rfl) ?_⟩
            exact hreply.trans (if_neg hempty)
    · refine error e _ h' hd' fun hrelay => ?_
      rcases hm with rfl | rfl
      · obtain rfl : cancelledError = e := Except.error.inj (hend p.operation)
        cases hrelay
      · have hreplied : ∃ e', repliedWith x.lib p.operation (f tier p) = .error e' ∧
            e'.isRelayError = e.isRelayError ∧ e'.msg = e.msg :=
          repliedWith_of_endOf (hend p.operation)
        obtain ⟨e', he', hr, hmsg⟩ := hreplied
        exact ⟨e', he', hr.trans hrelay, hmsg⟩
  unfold complete watch
  rw [Coro.wp_bind]
  split
  · exact ⟨trivial, hrest _ (h.alike (hwatch s)) (hd.later (later_of_alike (hwatch s)))⟩
  · exact hrest s h hd

/-- A call that raised goes on raising. -/
theorem wp_callFailed {Q : Except Exc Json → Run → Prop} {e : Exc} (h : Judged x f s)
    (he : Fails x f tier p e)
    (hQ : ∀ e s', Judged x f s' → Fails x f tier p e → Q (.error e) s') :
    (callFailed x .main k e).wp (ears x f) Q s := by
  unfold callFailed
  rw [Coro.wp_bind, Coro.wp_read, Coro.outcome_ok]
  have hset : ∀ {s r} {g : CallRecord → CallRecord}, (∀ c : CallRecord,
      (g c).operation = c.operation ∧ (g c).taskId = c.taskId ∧ (g c).attempt = c.attempt ∧
        (g c).forTier = c.forTier) → Judged x f s → Judged x f (s.endCall k r g) :=
    fun hg h => durable.setCall (fun c => ⟨rfl, hg c.record⟩) h
  split
  · rw [Coro.wp_bind, Coro.wp_update]
    refine ⟨trivial, ?_⟩
    rw [Coro.outcome_ok, Coro.wp_bind]
    refine wp_reportCall (hset (fun _ => ⟨rfl, rfl, rfl, rfl⟩) h) fun r s' h' _ hr => ?_
    cases r with
    | ok a => exact hQ e s' h' he
    | error e' =>
        refine hQ e' s' h' fun hrelay => ?_
        rw [hr e' rfl] at hrelay
        cases hrelay
  · rw [Coro.wp_bind, Coro.wp_update]
    exact ⟨trivial, hQ e _ (hset (fun _ => ⟨rfl, rfl, rfl, rfl⟩) h) he⟩

/-- **A call for a verdict** comes to what its replies come to. -/
theorem wp_callWithRecord {Q : Except Exc (Json × CallRecord) → Run → Prop} (h : Judged x f s)
    (hlocal : tier ≠ .cloud) (hfor : p.forTier.isSome)
    (ok : ∀ v record s', Judged x f s' → x.reply f tier p = .ok (v, record.tokenStats) →
      Q (.ok (v, record)) s')
    (error : ∀ e s', Judged x f s' → Fails x f tier p e → Q (.error e) s') :
    (callWithRecord x .main tier p).wp (ears x f) Q s := by
  unfold callWithRecord spend
  rw [Coro.wp_bind, Coro.wp_bind, Coro.wp_read, Coro.outcome_ok, if_neg hlocal, Coro.wp_pure,
    Coro.outcome_ok, Coro.wp_bind, Coro.wp_read, Coro.outcome_ok, Coro.wp_bind, Coro.wp_update]
  refine ⟨trivial, ?_⟩
  have hadded : Mine tier p s.calls.length (s.newCall .main tier p) (s.addCall .main tier p) :=
    ⟨by simp [Run.addCall], rfl, rfl, rfl⟩
  rw [Coro.outcome_ok, Coro.wp_bind, Coro.wp_tryFinally, Coro.wp_tryExcept]
  refine wp_complete (durable.addCall _ _ _ h) hadded hfor (fun v s₁ d h₁ hd hv => ?_)
    fun e s₁ h₁ _ he => ?_
  · refine wp_unwatch h₁ fun s₂ h₂ hl₂ => ?_
    rw [Coro.outcome_ok, Coro.outcome_ok, Coro.wp_bind, Coro.wp_update]
    refine ⟨trivial, ?_⟩
    have hd₃ := (hd.later hl₂).set (g := fun c => { c with record :=
      { c.record with elapsedMs := s₂.elapsed s.calls.length } }) rfl rfl rfl
    rw [Coro.outcome_ok, Coro.wp_bind]
    refine wp_reportCall (durable.setCall (fun _ => ⟨rfl, rfl, rfl, rfl, rfl⟩) h₂)
      fun r s₄ h₄ hl₄ hr => ?_
    cases r with
    | error e =>
        refine error e s₄ h₄ fun hrelay => ?_
        rw [hr e rfl] at hrelay
        cases hrelay
    | ok a =>
        refine ok v _ s₄ h₄ ?_
        rw [Run.recordAt, (hd₃.later hl₄).here]
        exact hv
  · refine wp_callFailed h₁ he fun e' s₂ h₂ he' => ?_
    exact wp_unwatch h₂ fun s₃ h₃ _ => error e' s₃ h₃ he'

end Calls

/-! ## The cascade -/

section Cascade
variable {tier : Tier}

theorem wp_sample {i : ℕ} {Q : Except Exc Assessment → Run → Prop} (h : Judged x f s)
    (hlocal : tier ≠ .cloud)
    (hQ : ∀ r s', Judged x f s' → (∀ a, r = .ok a → x.drawn f tier i = .ok a) → Q r s') :
    (sample x tier i).wp (ears x f) Q s := by
  have hrest : ∀ (v : Json) (stats : Option TokenStats) s, Judged x f s →
      x.drawn f tier i = readAssessment x.lib v stats → Coro.wp (ears x f)
        (do
          let a ← Coro.ofExcept (readAssessment x.lib v stats)
          event x .main (.localSample tier (i + 1) a)
          pure a) Q s := by
    intro v stats s h hv
    rw [Coro.wp_bind, Coro.wp_ofExcept, hv.symm]
    cases hr : x.drawn f tier i with
    | error e => exact hQ _ s h (by simp)
    | ok a =>
        rw [Coro.outcome_ok, Coro.wp_bind]
        refine wp_event h (by simp) fun r s' h' _ _ => ?_
        cases r with
        | error e => exact hQ _ s' h' (by simp)
        | ok u => exact hQ _ s' h' fun a' ha' => hr.trans ha'
  unfold sample exceptRelay
  rw [Coro.wp_bind, Coro.wp_tryExcept, Coro.wp_bind]
  refine wp_callWithRecord h hlocal rfl (fun v record s' h' hv => ?_) fun e s' h' he => ?_
  · refine hrest v record.tokenStats s' h' ?_
    rw [Setup.drawn, hv]
  · rw [Coro.outcome_error, Coro.outcome_error]
    split
    · rename_i hrelay
      obtain ⟨e', he', hrelay', hmsg⟩ := he hrelay
      refine hrest (failedAnswer e) none s' h' ?_
      rw [Setup.drawn, he']
      simp only [hrelay', if_true, failedAnswer, hmsg]
    · exact hQ _ s' h' (by simp)

/-- Sampling stops at the first answer that asks for help. By induction on the samples left. -/
theorem wp_samplesFrom {n i : ℕ} {Q : Except Exc (List Assessment) → Run → Prop}
    (h : Judged x f s) (hlocal : tier ≠ .cloud)
    (hQ : ∀ r s', Judged x f s' → (∀ as, r = .ok as → x.draws f tier n i = .ok as) → Q r s') :
    (samplesFrom x tier n i).wp (ears x f) Q s := by
  induction n generalizing i s Q with
  | zero => exact hQ _ s h fun as has => has
  | succ n ih =>
      unfold samplesFrom
      rw [Coro.wp_bind]
      refine wp_sample h hlocal fun r s' h' hr => ?_
      cases r with
      | error e => exact hQ _ s' h' (by simp)
      | ok a =>
          have ha := hr a rfl
          rw [Coro.outcome_ok]
          by_cases hask : a.needsEscalation = true
          · rw [if_pos hask]
            refine hQ _ s' h' fun as has => ?_
            rw [Setup.draws, ha, ok_bind, if_pos hask]
            exact has
          · rw [if_neg hask, Coro.wp_bind]
            refine ih h' fun r s'' h'' hr => ?_
            cases r with
            | error e => exact hQ _ s'' h'' (by simp)
            | ok rest =>
                refine hQ _ s'' h'' fun as has => ?_
                rw [Setup.draws, ha, ok_bind, if_neg hask, hr rest rfl]
                exact has

/-- What makes a critique unreadable is none of the relay's errors. -/
theorem not_relay_readCritique {lib : StdLib} {v : Json} {e : Exc}
    (h : readCritique lib v = .error e) : e.isRelayError = false := by
  have hnumber : ∀ {d v}, readNumber lib d v = .error e → e.isRelayError = false := by
    intro d v h
    unfold readNumber at h
    split at h <;> cases h
    rfl
  unfold readCritique at h
  split at h
  · rename_i severity _
    cases hs : readNumber lib 1 severity with
    | error e' =>
        rw [hs, error_bind] at h
        cases h
        exact hnumber hs
    | ok n =>
        rw [hs, ok_bind] at h
        cases h
  · cases h

theorem wp_critiqueOf {samples : List Assessment} {Q : Except Exc Critique → Run → Prop}
    (h : Judged x f s) (ht : tier ∈ x.locals)
    (hQ : ∀ r s', Judged x f s' → (∀ c, r = .ok c → x.checked f tier samples = .ok c) →
      Q r s') : (critiqueOf x tier samples).wp (ears x f) Q s := by
  have hcritic : x.policy.criticTier tier x.tiers ≠ .cloud := by
    simpa using (List.mem_filter.mp (RoutingPolicy.criticTier_mem ht)).2
  unfold critiqueOf
  by_cases huse : (!x.policy.useCritic) = true
  · rw [if_pos huse]
    refine hQ _ s h fun c hc => ?_
    rw [Setup.checked, if_pos huse]
    exact hc
  rw [if_neg huse]
  by_cases hask : samples.any Assessment.needsEscalation = true
  · rw [if_pos hask]
    refine hQ _ s h fun c hc => ?_
    rw [Setup.checked, if_neg huse, if_pos hask]
    exact hc
  rw [if_neg hask, Coro.wp_bind]
  have hchecked : x.checked f tier samples = x.criticised f tier samples := by
    rw [Setup.checked, if_neg huse, if_neg hask]
  refine wp_event h (by simp) fun r s₁ h₁ _ _ => ?_
  cases r with
  | error e => exact hQ _ s₁ h₁ (by simp)
  | ok u =>
      unfold exceptRelay call
      rw [Coro.outcome_ok, Coro.wp_tryExcept, Coro.wp_bind, Coro.wp_bind]
      refine wp_callWithRecord h₁ hcritic rfl (fun v record s₂ h₂ hv => ?_) fun e s₂ h₂ he => ?_
      · rw [Coro.outcome_ok, Coro.wp_pure, Coro.outcome_ok, Coro.wp_bind, Coro.wp_ofExcept]
        have hgiven : x.criticised f tier samples = (readCritique x.lib v).map fun c =>
            { c with tier := some (x.policy.criticTier tier x.tiers) } := by
          rw [Setup.criticised, hv]
        cases hread : readCritique x.lib v with
        | ok c =>
            refine hQ _ s₂ h₂ fun c' hc' => ?_
            rw [hchecked, hgiven, hread]
            exact hc'
        | error e =>
            rw [Coro.outcome_error, Coro.outcome_error, not_relay_readCritique hread]
            exact hQ _ s₂ h₂ (by simp)
      · rw [Coro.outcome_error, Coro.outcome_error, Coro.outcome_error]
        split
        · rename_i hrelay
          obtain ⟨e', he', hrelay', hmsg⟩ := he hrelay
          refine hQ _ s₂ h₂ fun c hc => ?_
          rw [hchecked, Setup.criticised, he']
          simp only [hrelay', if_true, hmsg]
          exact hc
        · exact hQ _ s₂ h₂ (by simp)

/-- **A verdict** is what the replies come to. -/
theorem wp_judgeLocally {Q : Except Exc Verdict → Run → Prop} (h : Judged x f s)
    (ht : tier ∈ x.locals)
    (hQ : ∀ r s', Judged x f s' → (∀ v, r = .ok v → x.judged f tier = .ok v ∧
      (x.emit = true → ∃ w, .localVerdict tier v w ∈ told s'.log)) → Q r s') :
    (judgeLocally x tier).wp (ears x f) Q s := by
  have hlocal := ne_cloud_of_mem_locals ht
  unfold judgeLocally
  rw [Coro.wp_bind]
  refine wp_event h (by simp) fun r s₁ h₁ _ _ => ?_
  cases r with
  | error e => exact hQ _ s₁ h₁ (by simp)
  | ok u =>
      rw [Coro.outcome_ok, Coro.wp_bind]
      refine wp_samplesFrom h₁ hlocal fun r s₂ h₂ hdraws => ?_
      cases r with
      | error e => exact hQ _ s₂ h₂ (by simp)
      | ok samples =>
          rw [Coro.outcome_ok, Coro.wp_bind]
          refine wp_critiqueOf h₂ ht fun r s₃ h₃ hchecked => ?_
          cases r with
          | error e => exact hQ _ s₃ h₃ (by simp)
          | ok critique =>
              rw [Coro.outcome_ok, Coro.wp_bind, Coro.wp_ofExcept]
              have hjudged : x.judged f tier =
                  x.policy.decide x.lib tier x.text samples critique := by
                rw [Setup.judged, hdraws samples rfl, ok_bind, hchecked critique rfl, ok_bind]
              cases hv : x.policy.decide x.lib tier x.text samples critique with
              | error e => exact hQ _ s₃ h₃ (by simp)
              | ok v =>
                  rw [hv] at hjudged
                  rw [Coro.outcome_ok, Coro.wp_bind]
                  refine wp_tell h₃ (fun t w ws hd => ?_) fun r s₄ h₄ _ _ htold => ?_
                  · cases hd
                    exact ⟨ht, hjudged⟩
                  · cases r with
                    | error e => exact hQ _ s₄ h₄ (by simp)
                    | ok u =>
                        refine hQ _ s₄ h₄ fun w hw => ?_
                        cases hw
                        exact ⟨hjudged, fun hemit => ⟨_, htold hemit rfl⟩⟩

/-- **The cascade** judges by the replies. By induction on the tiers that are left. -/
theorem preserves_cascade {tiers : List Tier} (hl : ∀ t ∈ tiers, t ∈ x.locals) :
    (cascade x tiers).Preserves (ears x f) (Judged x f) := by
  induction tiers with
  | nil => exact .pure none
  | cons tier tiers ih =>
      have hrest := ih fun t ht => hl t (List.mem_cons_of_mem _ ht)
      intro s h
      unfold cascade
      simp only
      by_cases hskip : x.policy.skips tier x.tiers (taskComplexity x.lib x.text) = true
      · have hskipped : Judged x f { s with skipped := s.skipped ++ [tier] } := by
          refine ⟨h.verdicts, fun t ht => ?_, h.heard, h.announced⟩
          rcases List.mem_append.mp ht with ht | ht
          · exact h.skipped t ht
          · rw [List.mem_singleton.mp ht]
            exact hskip
        rw [if_pos hskip, Coro.wp_bind, Coro.wp_update]
        refine ⟨trivial, ?_⟩
        rw [Coro.outcome_ok, Coro.wp_bind]
        refine wp_event hskipped (by simp) fun r s₁ h₁ _ _ => ?_
        cases r with
        | error e => exact h₁
        | ok u => exact hrest s₁ h₁
      · rw [if_neg hskip, Coro.wp_bind]
        refine wp_judgeLocally h (hl tier (by simp)) fun r s₁ h₁ hjudged => ?_
        cases r with
        | error e => exact h₁
        | ok v =>
            obtain ⟨hv, htold⟩ := hjudged v rfl
            have hverdict : Judged x f { s₁ with verdicts := s₁.verdicts ++ [v] } := by
              refine ⟨fun w hw => ?_, h₁.skipped, h₁.heard, fun hemit w hw => ?_⟩
              · rcases List.mem_append.mp hw with hw | hw
                · exact h₁.verdicts w hw
                · rw [List.mem_singleton.mp hw, Setup.tier_of_judged hv]
                  exact ⟨(Bool.not_eq_true _).mp hskip, hv⟩
              · rcases List.mem_append.mp hw with hw | hw
                · exact h₁.announced hemit w hw
                · rw [List.mem_singleton.mp hw, Setup.tier_of_judged hv]
                  exact htold hemit
            rw [Coro.outcome_ok, Coro.wp_bind, Coro.wp_update]
            refine ⟨trivial, ?_⟩
            rw [Coro.outcome_ok]
            split
            · exact hrest _ hverdict
            · rw [Coro.wp_bind, Coro.wp_update]
              refine ⟨trivial, ?_⟩
              rw [Coro.outcome_ok, Coro.wp_bind]
              have hroute : Judged x f
                  { s₁ with verdicts := s₁.verdicts ++ [v], route := some tier } :=
                ⟨hverdict.verdicts, hverdict.skipped, hverdict.heard, hverdict.announced⟩
              refine wp_event hroute (by simp) fun r s₂ h₂ _ _ => ?_
              cases r with
              | error e => exact h₂
              | ok u => exact h₂

end Cascade

/-! ## The run -/

theorem preserves_of_upholds {α : Type} {c : Prog α} (hc : c.Upholds (Judged x f)) :
    c.Preserves (ears x f) (Judged x f) := fun _ h => wp_of_upholds hc h

theorem preserves_update {g : Run → Run} (hg : ∀ s : Run, s.Alike (g s)) :
    (Coro.update g : Prog Unit).Preserves (ears x f) (Judged x f) :=
  preserves_of_upholds (upholds_update durable hg)

theorem preserves_event {d : EventData} (done : Bool) (hd : d.Ordinary) :
    (event x .main d done).Preserves (ears x f) (Judged x f) :=
  preserves_of_upholds (upholds_event durable .main done hd)

theorem preserves_execute : (execute x).Preserves (ears x f) (Judged x f) := by
  have hroute : (route x).Preserves (ears x f) (Judged x f) := by
    refine .bind (preserves_cascade fun _ h => h) ?_
    rintro (_ | content)
    · exact preserves_of_upholds (upholds_escalate durable)
    · exact .pure content
  refine .ite (.bind (preserves_of_upholds (upholds_tryExtract durable)) ?_) hroute
  rintro (_ | answer)
  · exact hroute
  · exact .bind (preserves_update fun _ => ⟨rfl, rfl, rfl, rfl⟩) fun _ => .pure _

theorem preserves_answerRequest : (answerRequest x).Preserves (ears x f) (Judged x f) := by
  have hlocations : (locations x).Upholds (Judged x f) :=
    .ite (.tryExcept (.request _) fun e => .ite (.pure _) (.raise e)) (.pure _)
  refine .bind (preserves_of_upholds hlocations) fun found =>
    .bind (preserves_event _ trivial) fun _ => .bind (.ite (preserves_event _ trivial)
      (.pure ())) fun _ => .bind preserves_execute fun content => ?_
  exact .reading fun _ => .bind (preserves_event _ trivial) fun _ =>
    .reading fun _ => .pure _

/-- **The main flow** judges by the replies. -/
theorem preserves_run : (run x).Preserves (ears x f) (Judged x f) := by
  refine .bind (preserves_of_upholds (.request _)) fun _ => .ite (.raise _) (.ite (.raise _) ?_)
  refine .tryExcept ?_ fun e => preserves_of_upholds (upholds_runFailed durable e)
  refine .bind (preserves_update fun _ => ⟨rfl, rfl, rfl, rfl⟩) fun _ =>
    .bind (.attempt preserves_answerRequest) fun r => .reading fun s =>
      .bind (preserves_update fun _ => ⟨rfl, rfl, rfl, rfl⟩) fun _ => ?_
  cases r with
  | ok a => exact .pure a
  | error e => exact .ite (.raise _) (.raise _)

theorem empty : Judged x f {} where
  verdicts v hv := by cases hv
  skipped t ht := by cases ht
  heard t v w hd := by cases hd
  announced _ v hv := by cases hv

/-! ## Every run -/

/-- What any step but one of the main flow does. -/
theorem beside_step {l : Label Thread Choice Move} (h : x.Reachable c)
    (hl : ∀ m, l ≠ .resume .main m) (hs : x.system.step c l = some c') :
    Beside c.shared c'.shared := by
  obtain ⟨new, hnew, htells⟩ := h.handed_step hs
  cases l with
  | move v =>
      obtain ⟨s', hmove, rfl⟩ := System.step_move hs
      exact beside_of_alike (alike_move hmove)
  | resume i m =>
      have hne : Thread.main ≠ i := fun hi => hl m (hi ▸ rfl)
      have hguar : Guar i c.shared.toLedger c'.shared.toLedger :=
        (contract_holds x anyEnd).guarantees h.admitted (admits_anyEnd c _) trivial hs
      have hrely : MainRely c.shared.toLedger c'.shared.toLedger := hguar.rely hne h.ok.plan.ids
      have htold : told c'.shared.log = told c.shared.log ++ new.map RelayEvent.data := by
        rw [told, hnew, List.map_append, told]
      refine ⟨⟨hrely.calls, hrely.verdicts, hrely.skipped, ?_⟩, new.map RelayEvent.data, htold, ?_⟩
      · rw [htold]
        exact List.prefix_append _ _
      · intro d hd
        obtain ⟨e, he, rfl⟩ := List.mem_map.mp hd
        obtain ⟨j, m', hlabel, htell⟩ := htells e he
        cases hlabel
        cases i with
        | main => exact absurd rfl hne
        | job n =>
            obtain ⟨job, -, hteller⟩ := htell
            simp [hteller]
        | follower k =>
            obtain ⟨d, -, -, hteller, -⟩ := htell
            simp [hteller]

/-- **The outline holds**, whatever the provider replies to other calls. -/
theorem hearing_holds (x : Setup) (f : Tier → Payload → Choice) :
    (hearing x f).Holds x.system {} (Replies f) where
  rely_refl _ := Beside.refl
  rely_trans _ _ _ _ := Beside.trans
  guar_refl _ _ := trivial
  guar_trans _ _ _ _ _ _ := trivial
  start_await i := by cases i <;> exact ⟨_, _, rfl⟩
  init_inv := empty
  start_wp i hi := by
    obtain rfl : i = .main := hi
    exact (preserves_run.bind fun r => .pure (Result.run r)) _ empty
  known _ _ _ := trivial
  allow c i m op k hok hp := hok i m op k rfl hp
  finish i r s _ h := ⟨h.alike (alike_finish i r s), trivial⟩
  again i a s hi _ h := by
    obtain rfl : i = .main := hi
    cases h
  others c l c' hc _ hs hl h :=
    h.beside (beside_step hc.any (fun m hm => hl .main m hm rfl) hs)
  rely_step c l c' hc _ hs _ _ j hj hcov := by
    obtain rfl : j = .main := hcov
    exact beside_step hc.any hj hs

end Judged

/-- **The verdicts of every reachable state** are those of the cascade by itself. -/
theorem judged_of_reach (h : x.system.Reach {} (Replies f) c) : Judged x f c.shared :=
  (Judged.hearing_holds x f).always h

/-! ## Where a run answers -/

/-- A result that is no accepted extraction ends the cascade where the replies do. -/
theorem Judged.course {r : RunResult} (h : Judged x f s)
    (hok : s.toLedger.Ok x anyEnd) (hr : s.outcome = some (.ok r))
    (hx : ∀ a, ¬ s.toLedger.Extracted x a) :
    ∃ course, x.course f x.locals = .ok course ∧ r.metrics.skipped = course.skipped ∧
      r.metrics.verdicts = course.verdicts ∧ r.metrics.route = some course.route := by
  have hans := (hok.ended _ hr).answered r rfl
  have hrouted := hok.routed hr hx
  obtain ⟨t, ht⟩ := Option.isSome_iff_exists.mp hrouted.routed
  refine ⟨⟨s.skipped, s.verdicts⟩, ?_, hans.skipped, hans.verdicts, ?_⟩
  · obtain ⟨m, hm⟩ := hok.main.judged
    refine Setup.course_eq h.skipped h.verdicts hm hok.main.escalates ?_
    by_cases hcloud : t = .cloud
    · subst hcloud
      exact .inr (hok.main.cloud (hans.route ▸ ht))
    · obtain ⟨v, hv, -, hkeep, -⟩ := hrouted.trusted t ht hcloud
      exact .inl ⟨v, hans.verdicts ▸ hv, hkeep⟩
  · rw [ht, Course.route]
    by_cases hcloud : t = .cloud
    · subst hcloud
      obtain ⟨-, hesc⟩ := hok.main.cloud (hans.route ▸ ht)
      split
      · rename_i v hv
        rw [if_pos (hesc v (List.mem_of_getLast? hv))]
      · rfl
    · obtain ⟨v, hv, htier, hkeep, -⟩ := hrouted.trusted t ht hcloud
      have hv : s.verdicts.getLast? = some v := hans.verdicts ▸ hv
      simp [hv, hkeep, htier]

/-- **Where a run answers depends on the replies alone.** While the provider answers what is
asked for a verdict as a function says, every result that is no accepted extraction has the
verdicts and the route that this function gives the cascade, and returns the answer trusted
there, in every order of steps and whatever callbacks, other tasks and other calls do. -/
theorem routed_by_replies (h : x.system.Reach {} (Replies f) c) {r : RunResult}
    (hr : c.shared.outcome = some (.ok r)) (hx : ∀ a, ¬ c.shared.toLedger.Extracted x a) :
    ∃ course, x.course f x.locals = .ok course ∧ r.metrics.skipped = course.skipped ∧
      r.metrics.verdicts = course.verdicts ∧ r.metrics.route = some course.route ∧
      (course.route ≠ .cloud → ∃ v, course.verdicts.getLast? = some v ∧
        r.content = x.label v.answer) := by
  have hok := Setup.Reachable.ok h.any
  obtain ⟨course, hcourse, hskipped, hverdicts, hroute⟩ := (judged_of_reach h).course hok hr hx
  refine ⟨course, hcourse, hskipped, hverdicts, hroute, fun hlocal => ?_⟩
  obtain ⟨v, hv, -, -, hcontent⟩ := (hok.routed hr hx).trusted _ hroute hlocal
  exact ⟨v, hverdicts ▸ hv, hcontent⟩

/-! ## A run to look at -/

/-- What the environment answers a task that follows `f`. -/
def obey (f : Tier → Payload → Choice) (c : State) (i : Thread) : Choice :=
  match c.pool i with
  | .await (.complete k) _ =>
      ((c.shared.calls[k]?).map fun d => f d.record.tier d.payload).getD .go
  | _ => .go

/-- The tasks of a list take their turns, and the provider answers as `f` says. -/
def Setup.obeyed (x : Setup) (f : Tier → Payload → Choice) (c : State) :
    List Thread → Option State
  | [] => some c
  | i :: is => (x.system.step c (.resume i (obey f c i))).bind fun c' => x.obeyed f c' is

theorem replies_obey (f : Tier → Payload → Choice) (c : State) (i : Thread) :
    Replies f c (.resume i (obey f c i)) := by
  rintro j m op cont hlabel hpool k d rfl hd -
  cases hlabel
  right
  simp only [obey, hpool, hd, Option.map_some, Option.getD_some]

/-- Turns that lead to a state with a property show that one can be reached. -/
theorem exists_reach_of_obeyed (is : List Thread) {p : State → Bool}
    (h : (x.obeyed f (x.system.init {}) is).any p = true) :
    ∃ c, x.system.Reach {} (Replies f) c ∧ p c = true := by
  have hreach : ∀ {c c' : State}, x.system.Reach {} (Replies f) c → x.obeyed f c is = some c' →
      x.system.Reach {} (Replies f) c' := by
    clear h
    induction is with
    | nil =>
        intro c c' hc hs
        cases hs
        exact hc
    | cons i is ih =>
        intro c c' hc hs
        obtain ⟨d, hd, hs⟩ := Option.bind_eq_some_iff.mp hs
        exact ih (.step hc (replies_obey f c i) hd) hs
  obtain ⟨c, hc, hp⟩ := Option.any_eq_true _ _ |>.mp h
  exact ⟨c, hreach .init hc, hp⟩

/-- The solver is sure of its answer and the critic finds nothing. -/
def sure : Tier → Payload → Choice
  | _, .critique .. =>
      replyWith (.obj [("passed".toList, .bool true), ("severity".toList, .int 0)])
  | _, _ => replyWith (.obj [("answer".toList, .str "4".toList), ("confidence".toList, .int 1)])

theorem routed_by_replies_sure : ∃ (c : State) (r : RunResult) (course : Course),
    c.shared.outcome = some (.ok r) ∧ demoSetup.course sure demoSetup.locals = .ok course ∧
      r.metrics.route = some course.route ∧ course.route = .small := by
  obtain ⟨c, hc, h⟩ := exists_reach_of_obeyed (x := demoSetup) (f := sure)
    (List.replicate 3 .main)
    (p := fun c => c.shared.calls.all (fun d => d.payload.operation ≠ .attempt) &&
      c.shared.toLedger.returned fun r => r.metrics.route = some .small)
    (by decide +kernel)
  obtain ⟨hcalls, h⟩ := Bool.and_eq_true _ _ ▸ h
  obtain ⟨r, hr, hroute⟩ := Ledger.exists_of_returned h
  obtain ⟨course, hcourse, -, -, hroute', -⟩ := routed_by_replies hc hr (not_extracted hcalls)
  refine ⟨c, r, course, hr, hcourse, hroute', ?_⟩
  exact Option.some.inj (hroute'.symm.trans (of_decide_eq_true hroute))

end HorizonRelay
