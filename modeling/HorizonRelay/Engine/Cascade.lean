import HorizonRelay.Engine.MainFlow

/-!
# The cascade of local models

Each local model answers and is checked, smallest first, until one is trusted.  The slots
of its calls and the tiers already judged say where the cascade is; a model one of whose
calls failed is never trusted.

## Main definitions

* `Turn`, `Judging` — the turn of one local model, and how far it is.
* `Decided` — an answer was trusted.

## Main results

* `wp_judgeLocally` — one local model is judged.
* `wp_cascade` — the cascade trusts an answer, or judges every local model in vain.
-/

namespace HorizonRelay

open Py Coop

variable {x : Setup} {permit : Permit} {l l' : Ledger} {pre : List Slot} {done : List Tier}
  {t : Tier}

/-- The turn of local tier `t`, after the slots `pre` and the tiers `done`. -/
structure Turn (x : Setup) (pre : List Slot) (done : List Tier) (t : Tier) : Prop where
  mem : t ∈ x.locals
  fresh : t ∉ done
  fits : (pre ++ x.judgeSlots t).Sublist x.schedule

/-- The slots of the first `k` calls of a turn. -/
def turnSlots (t : Tier) (k : ℕ) : List Slot := (List.range' 1 k).map (Slot.judge t)

/-- The turn of tier `t` after `k` calls. -/
structure Judging (x : Setup) (permit : Permit) (pre : List Slot) (done : List Tier) (t : Tier)
    (k : ℕ) (l : Ledger) : Prop where
  undecided : Undecided x permit (pre ++ turnSlots t k) (l.verdicts.map Verdict.tier ++ [t]) l
  judged : l.judgedTiers = done

/-- A call about tier `t` failed. -/
def Distrust (l : Ledger) (t : Tier) : Prop :=
  ∃ c ∈ l.mine .main, ∃ e, c.payload.forTier = some t ∧ c.ended = some (.error e)

theorem ne_cloud_of_mem_locals (h : t ∈ x.locals) : t ≠ .cloud := by
  have := (List.mem_filter.mp h).2
  simpa using this

theorem turnSlots_succ (t : Tier) (k : ℕ) :
    turnSlots t (k + 1) = turnSlots t k ++ [.judge t (k + 1)] := by
  rw [turnSlots, turnSlots, List.range'_concat, List.map_append, List.map_singleton, Nat.one_mul,
    Nat.add_comm 1 k]

theorem turnSlots_sublist {k : ℕ} (hk : k ≤ x.policy.localSamples + 1) :
    (turnSlots t k).Sublist (x.judgeSlots t) := by
  refine List.Sublist.map _ ?_
  rw [← Nat.add_sub_cancel' hk, ← List.range'_append_1]
  exact List.sublist_append_left _ _

theorem distrust_withCall {b : CloudBudget} {c : Call} (hc : c.thread = .main)
    (h : Distrust (l.withCall b c) t) : Distrust l t ∨ ∃ e, c.ended = some (.error e) := by
  obtain ⟨d, hd, e, ht, he⟩ := h
  rw [mine_withCall_main hc] at hd
  rcases List.mem_append.mp hd with hd | hd
  · exact .inl ⟨d, hd, e, ht, he⟩
  · exact .inr ⟨e, List.mem_singleton.mp hd ▸ he⟩

theorem Judging.idle {k : ℕ} (h : Judging x permit pre done t k l) : Idle l := h.undecided.idle

theorem Judging.stopped {k : ℕ} (h : Judging x permit pre done t k l) {e : Exc}
    (he : x.policy.DefaultRules → ∃ i, l.Blames i e) : Stopped x permit e l :=
  h.undecided.stopped he

/-- The next call of a turn. -/
theorem Judging.withCall (turn : Turn x pre done t) {k : ℕ}
    (h : Judging x permit pre done t k l) (hk : k ≤ x.policy.localSamples) {tier : Tier}
    {p : Payload} (hslot : p.slot = .judge t (k + 1)) (hfor : p.forTier = some t)
    (htier : x.tierOf p = some tier) (hlocal : tier ≠ .cloud)
    (hsyn : p.operation ≠ .synthesize) {b : CloudBudget} {c : Call}
    (hb : charge x tier p.operation l.budget = .ok b) (hc : c.MadeBy .main tier p)
    (hp : c.Permitted permit) : Judging x permit pre done t (k + 1) (l.withCall b c) := by
  have hnext : pre ++ turnSlots t k ++ [p.slot] = pre ++ turnSlots t (k + 1) := by
    rw [turnSlots_succ, hslot, List.append_assoc]
  refine ⟨?_, h.judged⟩
  rw [← hnext]
  refine h.undecided.withCall ?_ htier hlocal ?_ ?_ hsyn hb hc hp
  · rw [hnext]
    exact ((List.Sublist.refl pre).append (turnSlots_sublist (by omega))).trans turn.fits
  · intro t' ht'
    rw [hfor] at ht'
    cases ht'
    simp
  · intro t' ht' v hv hvt
    rw [hfor] at ht'
    cases ht'
    refine turn.fresh ?_
    rw [← h.judged]
    exact List.mem_append_right _ (hvt ▸ List.mem_map_of_mem hv)

/-! ## Samples -/

/-- What stands for the answer of a failed call asks for a larger model. -/
theorem needsEscalation_failedAnswer {lib : StdLib} {e : Exc} {a : Assessment}
    (h : readAssessment lib (failedAnswer e) none = .ok a) : a.needsEscalation = true := by
  have hread : readAssessment lib (failedAnswer e) none = (do
      let confidence ← readNumber lib (1 / 2) (.float (.fin 0))
      pure { answer := [], confidence, taskType := "failed".toList, difficulty := "high".toList
             needsEscalation := true
             reason := ("The call failed: ".toList ++ e.msg).take 500 }) := rfl
  rw [hread] at h
  cases hn : readNumber lib (1 / 2) (.float (.fin 0)) with
  | error e' =>
      rw [hn] at h
      cases h
  | ok q =>
      rw [hn] at h
      cases h
      rfl

theorem charge_local {tier : Tier} {op : Operation} {b : CloudBudget} (h : tier ≠ .cloud) :
    charge x tier op b = .ok b := by
  unfold charge
  rw [if_neg h]

/-- A call of a turn: it moves the turn along, and whether it failed is all that is left to
look at. -/
theorem wp_turn_call (turn : Turn x pre done t) {k : ℕ} {tier : Tier} {p : Payload} {s : Run}
    {Q : Except Exc (Json × CallRecord) → Run → Prop}
    (h : Judging x permit pre done t k s.toLedger) (hk : k ≤ x.policy.localSamples)
    (hslot : p.slot = .judge t (k + 1)) (hfor : p.forTier = some t)
    (htier : x.tierOf p = some tier) (hlocal : tier ≠ .cloud) (hsyn : p.operation ≠ .synthesize)
    (ok : ∀ v record s', Judging x permit pre done t (k + 1) s'.toLedger →
      (Distrust s'.toLedger t → Distrust s.toLedger t) → Q (.ok (v, record)) s')
    (error : ∀ e s', Judging x permit pre done t (k + 1) s'.toLedger →
      (e.isRelayError = false → p.letsThrough e → ∃ i, s'.toLedger.Blames i e) →
      Q (.error e) s') :
    (callWithRecord x .main tier p).wp (terms x permit .main) Q s := by
  refine wp_callWithRecord_idle h.idle (fun b c hb hc hp => ?_) (fun e he => ?_)
    fun b c r s' hb hc hp hend hl => ?_
  · exact (h.withCall turn hk hslot hfor htier hlocal hsyn hb hc hp).undecided.ok
  · rw [charge_local hlocal] at he
    cases he
  · have h' := h.withCall turn hk hslot hfor htier hlocal hsyn hb hc hp
    rw [← hl] at h'
    cases r with
    | ok vr =>
        refine ok vr.1 vr.2 s' h' fun hd => ?_
        rw [hl] at hd
        rcases distrust_withCall hc.thread hd with hd | ⟨e, he⟩
        · exact hd
        · rw [hend.1] at he
          cases he
    | error e =>
        refine error e s' h' fun _ hthrough => ?_
        rw [hl]
        exact blames_of_ended hc hend (.inl hthrough)

/-- One sample: a call of the turn; if it failed, the sample asks for a larger model. -/
theorem wp_sample (turn : Turn x pre done t) {i : ℕ} {s : Run}
    {Q : Except Exc Assessment → Run → Prop}
    (h : Judging x permit pre done t i s.toLedger) (hi : i < x.policy.localSamples)
    (ok : ∀ a s', Judging x permit pre done t (i + 1) s'.toLedger →
      (Distrust s'.toLedger t → Distrust s.toLedger t ∨ a.needsEscalation = true) → Q (.ok a) s')
    (error : ∀ e s', Stopped x permit e s'.toLedger → Q (.error e) s') :
    (sample x t i).wp (terms x permit .main) Q s := by
  -- What follows the call: the reply is read and the sample is reported.
  have hread : ∀ (value : Json) (stats : Option TokenStats) (s' : Run),
      Judging x permit pre done t (i + 1) s'.toLedger →
      (∀ a, readAssessment x.lib value stats = .ok a →
        Distrust s'.toLedger t → Distrust s.toLedger t ∨ a.needsEscalation = true) →
      Coro.wp (terms x permit .main) (do
        let a ← Coro.ofExcept (readAssessment x.lib value stats)
        event x .main (.localSample t (i + 1) a)
        pure a) Q s' := by
    intro value stats s' h' hd
    rw [Coro.wp_bind, Coro.wp_ofExcept]
    cases ha : readAssessment x.lib value stats with
    | error e =>
        refine error e s' (h'.stopped fun _ => blames_fresh ?_)
        exact (fresh_readAssessment value stats e ha).1
    | ok a =>
        rw [Coro.outcome_ok, Coro.wp_bind]
        refine wp_event_idle h'.undecided.ok h'.idle fun r s'' hl hp => ?_
        have hd' := hd a ha
        rw [← hl] at h' hd'
        cases r with
        | ok _ => exact ok a s'' h' hd'
        | error e =>
            obtain rfl : e = cancelledError := by simpa using hp
            exact error _ _ (h'.stopped fun _ => blames_fresh rfl)
  have hlocal := ne_cloud_of_mem_locals turn.mem
  unfold sample exceptRelay
  rw [Coro.wp_bind, Coro.wp_tryExcept, Coro.wp_bind]
  refine wp_turn_call turn h (by omega) rfl rfl rfl hlocal (by simp [Payload.operation])
    (fun v record s' h' hd => ?_) (fun e s' h' hb => ?_)
  · exact hread v record.tokenStats s' h' fun a _ hd' => .inl (hd hd')
  · simp only [Coro.outcome_error]
    by_cases hrel : e.isRelayError = true
    · rw [if_pos hrel]
      exact hread (failedAnswer e) none s' h' fun a ha _ =>
        .inr (needsEscalation_failedAnswer ha)
    · rw [if_neg hrel]
      have hrel : e.isRelayError = false := by simpa using hrel
      exact error e s' (h'.stopped fun _ => hb hrel hrel)

/-- **The samples.** By induction on how many are left: each is one call of the turn, and a
failed one is the last. -/
theorem wp_samplesFrom (turn : Turn x pre done t) {n i : ℕ} {s : Run}
    {Q : Except Exc (List Assessment) → Run → Prop}
    (h : Judging x permit pre done t i s.toLedger) (hn : i + n ≤ x.policy.localSamples)
    (ok : ∀ as s', Judging x permit pre done t (i + as.length) s'.toLedger → as.length ≤ n →
      (0 < n → as ≠ []) →
      (Distrust s'.toLedger t → Distrust s.toLedger t ∨
        as.any Assessment.needsEscalation = true) → Q (.ok as) s')
    (error : ∀ e s', Stopped x permit e s'.toLedger → Q (.error e) s') :
    (samplesFrom x t n i).wp (terms x permit .main) Q s := by
  induction n generalizing i s Q with
  | zero => exact ok [] s h le_rfl (by simp) fun hd => .inl hd
  | succ n ih =>
      unfold samplesFrom
      rw [Coro.wp_bind]
      refine wp_sample turn h (by omega) (fun a s' h' hd => ?_) error
      rw [Coro.outcome_ok]
      by_cases hesc : a.needsEscalation = true
      · rw [if_pos hesc]
        exact ok [a] s' h' (by simp) (by simp) fun _ => .inr (by simp [hesc])
      · rw [if_neg hesc, Coro.wp_bind]
        refine ih h' (by omega) (fun as s'' h'' hlen _ hd' => ?_) error
        refine ok (a :: as) s'' ?_ (by simpa using hlen) (by simp) fun hdis => ?_
        · have : i + (a :: as).length = i + 1 + as.length := by
            rw [List.length_cons]
            omega
          rw [this]
          exact h''
        · rcases hd' hdis with hdis | hany
          · rcases hd hdis with hdis | hany
            · exact .inl hdis
            · exact absurd hany hesc
          · exact .inr (by simp [hany])

/-! ## The critic -/

/-- Whether a critique rejects the answer seriously. -/
def Critique.Rejects (c : Critique) : Prop :=
  c.skipped = false ∧ c.passed = false ∧ 1 / 2 ≤ c.severity

/-- The critic: at most one more call of the turn; if it failed, the answer is rejected. -/
theorem wp_critiqueOf (turn : Turn x pre done t) {samples : List Assessment} {s : Run}
    {Q : Except Exc Critique → Run → Prop}
    (h : Judging x permit pre done t samples.length s.toLedger)
    (hlen : samples.length ≤ x.policy.localSamples)
    (ok : ∀ c s', Judging x permit pre done t (x.policy.localSamples + 1) s'.toLedger →
      (Distrust s'.toLedger t → Distrust s.toLedger t ∨ c.Rejects) → Q (.ok c) s')
    (error : ∀ e s', Stopped x permit e s'.toLedger → Q (.error e) s') :
    (critiqueOf x t samples).wp (terms x permit .main) Q s := by
  have hmono : ∀ {k l}, k ≤ x.policy.localSamples + 1 → Judging x permit pre done t k l →
      Judging x permit pre done t (x.policy.localSamples + 1) l := by
    intro k l hk h
    refine ⟨h.undecided.mono ?_ (List.Subset.refl _), h.judged⟩
    refine (List.Sublist.refl pre).append (List.Sublist.map _ ?_)
    rw [← Nat.add_sub_cancel' hk, ← List.range'_append_1]
    exact List.sublist_append_left _ _
  have hcritic := ne_cloud_of_mem_locals (x := x)
    (RoutingPolicy.criticTier_mem (p := x.policy) turn.mem)
  unfold critiqueOf
  simp only
  split
  · exact ok _ s (hmono (by omega) h) .inl
  · split
    · exact ok _ s (hmono (by omega) h) .inl
    · rw [Coro.wp_bind]
      refine wp_event_idle h.undecided.ok h.idle fun r s₁ hl hp => ?_
      rw [← hl] at h ok
      cases r with
      | error e =>
          obtain rfl : e = cancelledError := by simpa using hp
          exact error _ _ (h.stopped fun _ => blames_fresh rfl)
      | ok _ =>
          unfold exceptRelay call
          rw [Coro.outcome_ok, Coro.wp_tryExcept, Coro.wp_bind, Coro.wp_bind]
          refine wp_turn_call turn h hlen rfl rfl rfl hcritic (by simp [Payload.operation])
            (fun v record s' h' hd => ?_) (fun e s' h' hb => ?_)
          · simp only [Coro.outcome_ok, Coro.wp_pure]
            rw [Coro.wp_bind, Coro.wp_ofExcept]
            cases hc : readCritique x.lib v with
            | error e =>
                obtain ⟨hcall, hcls⟩ := fresh_readCritique v e hc
                simp only [Coro.outcome_error]
                by_cases hrel : e.isRelayError = true
                · rw [if_pos hrel]
                  exact ok _ s' (hmono (by omega) h') fun hd' => .inl (hd hd')
                · rw [if_neg hrel]
                  exact error e s' (h'.stopped fun _ => blames_fresh hcall)
            | ok c => exact ok _ s' (hmono (by omega) h') fun hd' => .inl (hd hd')
          · simp only [Coro.outcome_error]
            by_cases hrel : e.isRelayError = true
            · rw [if_pos hrel]
              refine ok _ s' (hmono (by omega) h') fun _ => .inr ⟨rfl, rfl, ?_⟩
              norm_num
            · rw [if_neg hrel]
              have hrel : e.isRelayError = false := by simpa using hrel
              exact error e s' (h'.stopped fun _ => hb hrel hrel)

/-! ## One local model -/

/-- **One local model is judged.** If one of its calls failed and the policy has the default
rules, the verdict escalates. -/
theorem wp_judgeLocally (turn : Turn x pre done t) {s : Run}
    {Q : Except Exc Verdict → Run → Prop} (h : Judging x permit pre done t 0 s.toLedger)
    (hnew : ¬ Distrust s.toLedger t)
    (ok : ∀ v s', Judging x permit pre done t (x.policy.localSamples + 1) s'.toLedger →
      v.tier = t → (x.policy.DefaultRules → Distrust s'.toLedger t → v.escalate = true) →
      Q (.ok v) s')
    (error : ∀ e s', Stopped x permit e s'.toLedger → Q (.error e) s') :
    (judgeLocally x t).wp (terms x permit .main) Q s := by
  have hcancel : ∀ {k} {s' : Run}, Judging x permit pre done t k s'.toLedger →
      Q (.error cancelledError) s' :=
    fun h => error _ _ (h.stopped fun _ => blames_fresh rfl)
  unfold judgeLocally
  rw [Coro.wp_bind]
  refine wp_event_idle h.undecided.ok h.idle fun r s₁ hl hp => ?_
  rw [← hl] at h hnew
  cases r with
  | error e =>
      obtain rfl : e = cancelledError := by simpa using hp
      exact hcancel h
  | ok _ =>
      rw [Coro.outcome_ok, Coro.wp_bind]
      refine wp_samplesFrom turn h (by omega) (fun samples s₂ h₂ hlen _ hd₂ => ?_) error
      rw [Nat.zero_add] at h₂
      rw [Coro.outcome_ok, Coro.wp_bind]
      refine wp_critiqueOf turn h₂ hlen (fun critique s₃ h₃ hd₃ => ?_) error
      rw [Coro.outcome_ok, Coro.wp_bind, Coro.wp_ofExcept]
      cases hv : x.policy.decide x.lib t x.text samples critique with
      | error e =>
          refine error e s₃ (h₃.stopped fun hdef => blames_fresh ?_)
          exact (RoutingPolicy.fresh_decide hdef _ _ _ _ e hv).1
      | ok v =>
          rw [Coro.outcome_ok, Coro.wp_bind]
          refine wp_event_idle h₃.undecided.ok h₃.idle fun r s₄ hl₄ hp₄ => ?_
          rw [← hl₄] at h₃ hd₃
          cases r with
          | error e =>
              obtain rfl : e = cancelledError := by simpa using hp₄
              exact hcancel h₃
          | ok _ =>
              refine ok v s₄ h₃ (RoutingPolicy.decide_eq_ok hv).1 fun hdef hdis => ?_
              refine RoutingPolicy.escalate_of_default hdef hv ?_
              rcases hd₃ hdis with hdis | hrej
              · rcases hd₂ hdis with hdis | hany
                · exact absurd hdis hnew
                · exact .inl hany
              · exact .inr hrej

/-! ## The cascade -/

/-- An answer was trusted: the main flow has a local route and a content. -/
structure Decided (x : Setup) (permit : Permit) (content : Str) (l : Ledger) : Prop where
  ok : l.Ok x permit
  idle : Idle l
  outcome : l.outcome = none
  plan : l.plan = none
  route : ∃ t, l.route = some t ∧ t ≠ .cloud
  content : (∃ a, l.Extracted x a ∧ content = x.label a) ∨
    ∃ v, l.verdicts.getLast? = some v ∧ content = x.label v.answer

/-- The tiers judged so far come first among the local ones. -/
theorem take_of_append {d tiers : List Tier} (hl : x.locals = d ++ tiers) :
    d = x.locals.take d.length := by
  rw [hl, List.take_left]

/-- A tier is skipped: it is the first. -/
theorem Undecided.skip (h : Undecided x permit pre (l.verdicts.map Verdict.tier) l)
    (hd : l.judgedTiers = done)
    {tiers : List Tier} (hl : x.locals = done ++ t :: tiers)
    (hs : x.locals.head? = some t) :
    Undecided x permit pre (l.verdicts.map Verdict.tier)
        { l with skipped := l.skipped ++ [t] } ∧
      ({ l with skipped := l.skipped ++ [t] } : Ledger).judgedTiers = done ++ [t] := by
  have hnil : done = [] := by
    cases hdone : done with
    | nil => rfl
    | cons t' rest =>
        have hnodup : x.locals.Nodup := localTiers_nodup _
        rw [hl, hdone] at hs hnodup
        simp only [List.cons_append, List.head?_cons, Option.some.injEq] at hs
        simp [hs] at hnodup
  have hv : l.verdicts = [] := by
    rw [hnil] at hd
    have := (List.append_eq_nil_iff.mp hd).2
    simpa using this
  have hjudged : ({ l with skipped := l.skipped ++ [t] } : Ledger).judgedTiers = done ++ [t] := by
    rw [← hd]
    simp [Ledger.judgedTiers, hv]
  refine ⟨?_, hjudged⟩
  have hmain : MainOk x { l with skipped := l.skipped ++ [t] } :=
    { schedule := h.ok.main.schedule, tiers := h.ok.main.tiers, fits := h.ok.main.fits
      distrusted := h.ok.main.distrusted, heard := h.ok.main.heard
      judged := ⟨(done ++ [t]).length, hjudged.trans
        (take_of_append (d := done ++ [t]) (by rw [hl, List.append_assoc]; rfl))⟩
      escalates := h.ok.main.escalates, trusted := h.ok.main.trusted, free := h.ok.main.free
      cloud := fun hc => by
        have hc : l.route = some .cloud := hc
        rw [h.route] at hc
        cases hc }
  exact { h with ok := h.ok.withMain h.outcome h.plan rfl hmain }

/-- What the verdict on the tier whose turn it is does to the main flow's relations. -/
theorem Judging.mainOk_verdict {k : ℕ} (h : Judging x permit pre done t k l) {v : Verdict}
    (hv : v.tier = t) {tiers : List Tier} (hl : x.locals = done ++ t :: tiers)
    (hdis : x.policy.DefaultRules → Distrust l t → v.escalate = true) {r : Option Tier}
    (hr : r = none ∨ r = some t ∧ v.escalate = false) :
    MainOk x { l with verdicts := l.verdicts ++ [v], route := r } where
  schedule := h.undecided.ok.main.schedule
  tiers := h.undecided.ok.main.tiers
  fits := h.undecided.ok.main.fits
  distrusted hdef c hc t' e ht' he w hw hwt := by
    rcases List.mem_append.mp hw with hw | hw
    · exact h.undecided.ok.main.distrusted hdef c hc t' e ht' he w hw hwt
    · rw [List.mem_singleton.mp hw] at hwt ⊢
      rw [hv] at hwt
      subst hwt
      exact hdis hdef ⟨c, hc, e, ht', he⟩
  heard _ c hc t' ht' := by
    rw [List.map_append, List.map_singleton, hv]
    exact h.undecided.about c hc t' ht'
  judged := by
    refine ⟨(done ++ [t]).length, ?_⟩
    rw [← take_of_append (d := done ++ [t]) (by rw [hl, List.append_assoc]; rfl), ← h.judged]
    simp [Ledger.judgedTiers, hv]
  escalates w hw := by
    rw [List.dropLast_concat] at hw
    exact h.undecided.escalated w hw
  trusted t' ht' hne := by
    rcases hr with rfl | ⟨rfl, hesc⟩
    · cases ht'
    · cases ht'
      exact .inr ⟨v, List.getLast?_concat, hv, hesc⟩
  free t' ht' hne := h.undecided.free
  cloud hc := by
    rcases hr with rfl | ⟨rfl, -⟩
    · cases hc
    · cases hc
      have := ne_cloud_of_mem_locals (x := x) (t := .cloud) (by rw [hl]; simp)
      exact absurd rfl this

theorem wp_update_main {f : Run → Run} {s : Run} {Q : Except Exc Unit → Run → Prop}
    (hf : MainStep s.toLedger (f s).toLedger) (hQ : Q (.ok ()) (f s)) :
    (Coro.update f).wp (terms x permit .main) Q s := by
  rw [Coro.wp_update]
  exact ⟨hf, hQ⟩

/-- **The cascade.** By induction on the tiers that are left: each is skipped, judged in
vain, or trusted. -/
theorem wp_cascade {tiers : List Tier} {s : Run} {Q : Except Exc (Option Str) → Run → Prop}
    (hl : x.locals = done ++ tiers)
    (hfits : (pre ++ tiers.flatMap x.judgeSlots).Sublist x.schedule)
    (h : Undecided x permit pre (s.verdicts.map Verdict.tier) s.toLedger)
    (hd : s.toLedger.judgedTiers = done)
    (undecided : ∀ s', Undecided x permit (pre ++ tiers.flatMap x.judgeSlots)
      (s'.verdicts.map Verdict.tier) s'.toLedger → s'.toLedger.judgedTiers = x.locals →
      Q (.ok none) s')
    (decided : ∀ content s', Decided x permit content s'.toLedger → Q (.ok (some content)) s')
    (error : ∀ e s', Stopped x permit e s'.toLedger → Q (.error e) s') :
    (cascade x tiers).wp (terms x permit .main) Q s := by
  induction tiers generalizing pre done s with
  | nil =>
      rw [List.append_nil] at hl
      refine undecided s ?_ (hl ▸ hd)
      rw [List.flatMap_nil, List.append_nil]
      exact h
  | cons t tiers ih =>
      rw [List.flatMap_cons, ← List.append_assoc] at hfits undecided
      have hl' : x.locals = done ++ [t] ++ tiers := by rw [hl, List.append_assoc]; rfl
      have hnext : ∀ s' : Run, Undecided x permit (pre ++ x.judgeSlots t)
          (s'.verdicts.map Verdict.tier) s'.toLedger → s'.toLedger.judgedTiers = done ++ [t] →
          (cascade x tiers).wp (terms x permit .main) Q s' :=
        fun s' h' hd' => ih hl' hfits h' hd' undecided
      unfold cascade
      simp only
      by_cases hskip : x.policy.skips t x.tiers (taskComplexity x.lib x.text) = true
      · obtain ⟨h', hd'⟩ := h.skip hd hl (RoutingPolicy.head_of_skips hskip)
        have h' := h'.mono (List.sublist_append_left pre (x.judgeSlots t)) (List.Subset.refl _)
        rw [if_pos hskip, Coro.wp_bind]
        refine wp_update_main (mainStep_of_eq rfl rfl rfl rfl fun _ h => h) ?_
        rw [Coro.outcome_ok, Coro.wp_bind]
        refine wp_event_idle h'.ok h'.idle fun r s₁ hl₁ hp => ?_
        have h'' : Undecided x permit (pre ++ x.judgeSlots t) (s₁.verdicts.map Verdict.tier)
            s₁.toLedger := by
          rw [hl₁]
          exact h'
        cases r with
        | error e =>
            obtain rfl : e = cancelledError := by simpa using hp
            exact error _ _ (h''.stopped fun _ => blames_fresh rfl)
        | ok _ =>
            refine hnext s₁ h'' ?_
            rw [hl₁]
            exact hd'
      · have hmem : t ∈ x.locals := by
          rw [hl]
          simp
        have hfresh : t ∉ done := by
          have hnodup : x.locals.Nodup := localTiers_nodup _
          rw [hl] at hnodup
          intro hin
          exact (List.nodup_append.mp hnodup).2.2 t hin t (by simp) rfl
        have turn : Turn x pre done t :=
          ⟨hmem, hfresh, (List.sublist_append_left _ _).trans hfits⟩
        have hstart : Judging x permit pre done t 0 s.toLedger := by
          refine ⟨h.mono ?_ (List.subset_append_left _ _), hd⟩
          rw [show turnSlots t 0 = [] from rfl, List.append_nil]
        have hnew : ¬ Distrust s.toLedger t := by
          rintro ⟨c, hc, e, ht, -⟩
          refine hfresh ?_
          rw [← hd]
          exact List.mem_append_right _ (h.about c hc t ht)
        rw [if_neg hskip, Coro.wp_bind]
        refine wp_judgeLocally turn hstart hnew (fun v s₁ h₁ hv hdis => ?_) error
        have hslots : Undecided x permit (pre ++ x.judgeSlots t)
            (s₁.verdicts.map Verdict.tier ++ [t]) s₁.toLedger := h₁.undecided
        have hjudged : s₁.skipped ++ s₁.verdicts.map Verdict.tier = done := h₁.judged
        rw [Coro.outcome_ok, Coro.wp_bind]
        refine wp_update_main (mainStep_of_eq rfl rfl rfl rfl fun _ h => h) ?_
        rw [Coro.outcome_ok]
        by_cases hesc : v.escalate = true
        · rw [if_pos hesc]
          have hroute := h₁.undecided.route
          refine hnext _ ?_ ?_
          · have hmain := h₁.mainOk_verdict hv hl hdis (r := none) (.inl rfl)
            exact
              { hslots with
                ok := h₁.undecided.ok.withMain h₁.undecided.outcome h₁.undecided.plan rfl
                  (by rw [hroute]; exact hmain)
                about := by
                  rw [List.map_append, List.map_singleton, hv]
                  exact hslots.about
                escalated := fun w hw => by
                  rcases List.mem_append.mp hw with hw | hw
                  · exact hslots.escalated w hw
                  · rw [List.mem_singleton.mp hw]
                    exact hesc }
          · simp only [Ledger.judgedTiers, List.map_append, List.map_singleton, hv,
              ← List.append_assoc, hjudged]
        · have hesc : v.escalate = false := by simpa using hesc
          rw [hesc, if_neg (by simp), Coro.wp_bind]
          refine wp_update_main (mainStep_of_eq rfl rfl rfl rfl fun _ h => h) ?_
          have hmain := h₁.mainOk_verdict hv hl hdis (r := some t) (.inr ⟨rfl, hesc⟩)
          have hok : Ledger.Ok x permit
              { s₁.toLedger with verdicts := s₁.verdicts ++ [v], route := some t } :=
            h₁.undecided.ok.withMain h₁.undecided.outcome h₁.undecided.plan rfl hmain
          rw [Coro.outcome_ok, Coro.wp_bind]
          refine wp_event_idle hok h₁.idle fun r s₂ hl₂ hp => ?_
          cases r with
          | error e =>
              obtain rfl : e = cancelledError := by simpa using hp
              refine error _ _ ⟨?_, ?_, ?_, fun _ => blames_fresh rfl, fun _ => .cancelled rfl⟩
              · rw [hl₂]
                exact hok
              · rw [hl₂]
                exact h₁.idle
              · rw [hl₂]
                exact h₁.undecided.outcome
          | ok _ =>
              refine decided _ _ ?_
              rw [hl₂]
              exact
                { ok := hok, idle := h₁.idle, outcome := h₁.undecided.outcome
                  plan := h₁.undecided.plan
                  route := ⟨t, rfl, ne_cloud_of_mem_locals hmem⟩
                  content := .inr ⟨v, List.getLast?_concat, rfl⟩ }

end HorizonRelay
