import HorizonRelay.Policy
import Mathlib.Algebra.Order.BigOperators.Group.List
import Mathlib.Algebra.Order.Field.Basic

/-!
# Escalation is monotone in risk

Two judgments of the same answers, the second with at least the risk of the first in every
respect: if the first is not trusted, neither is the second.  Every step from the samples to
the verdict keeps the order, the rounding to four decimals too.

## Main definitions

* `TokenStats.Riskier`, `Assessment.Riskier`, `Critique.Riskier`, `SignalValues.Riskier` —
  the second is at least as risky as the first.
* `Rule.Escalates` — the rules of the four kinds a policy has by default.
* `Weights.Nonneg`, `RoutingPolicy.rescale` — weights, and all of them times one factor.
-/

namespace HorizonRelay

open Py

/-- The same count of tokens, less probable and more hesitant. -/
structure TokenStats.Riskier (s t : TokenStats) : Prop where
  count : t.count = s.count
  prob : t.prob ≤ s.prob
  hesitation : s.hesitation ≤ t.hesitation

/-- The same answer, judged with at least the risk. -/
structure Assessment.Riskier (s t : Assessment) : Prop where
  answer : t.answer = s.answer
  confidence : t.confidence ≤ s.confidence
  needsEscalation : s.needsEscalation = true → t.needsEscalation = true
  tokenStats : Option.Rel TokenStats.Riskier s.tokenStats t.tokenStats

/-- A critique of at least the severity. -/
structure Critique.Riskier (c d : Critique) : Prop where
  skipped : d.skipped = c.skipped
  severity : c.severity ≤ d.severity
  passed : d.passed = true → c.passed = true

/-- The same signals are there, and each is at least as high. -/
structure SignalValues.Riskier (v w : SignalValues) : Prop where
  selfUncertainty : v.selfUncertainty ≤ w.selfUncertainty
  tokenUncertainty : Option.Rel (· ≤ ·) v.tokenUncertainty w.tokenUncertainty
  inconsistency : v.inconsistency ≤ w.inconsistency
  criticRisk : v.criticRisk ≤ w.criticRisk
  taskComplexity : v.taskComplexity ≤ w.taskComplexity
  explicitEscalation : v.explicitEscalation ≤ w.explicitEscalation

/-- The rules of the four kinds a policy has by default, with any bounds. -/
inductive Rule.Escalates : Rule → Prop
  | requested : Escalates escalateWhenRequested
  | empty : Escalates rejectEmptyAnswers
  | critic (minSeverity : ℚ) : Escalates (criticFails minSeverity)
  | tokens (limit : ℚ) (tiers : List Tier) (minTokens : ℕ) :
      Escalates (tokenUncertaintyAtLeast limit tiers minTokens)

theorem escalates_defaultRules : ∀ rule ∈ defaultRules, rule.Escalates := by
  intro rule h
  simp only [defaultRules, List.mem_cons, List.not_mem_nil, or_false] at h
  rcases h with rfl | rfl | rfl | rfl
  · exact .requested
  · exact .empty
  · exact .critic _
  · exact .tokens _ _ _

/-- Weights of which none is negative. -/
structure Weights.Nonneg (w : Weights) : Prop where
  selfUncertainty : 0 ≤ w.selfUncertainty
  tokenUncertainty : 0 ≤ w.tokenUncertainty
  inconsistency : 0 ≤ w.inconsistency
  criticRisk : 0 ≤ w.criticRisk
  taskComplexity : 0 ≤ w.taskComplexity
  explicitEscalation : 0 ≤ w.explicitEscalation

/-- All weights times one factor. -/
def Weights.scale (k : ℚ) (w : Weights) : Weights where
  selfUncertainty := k * w.selfUncertainty
  tokenUncertainty := k * w.tokenUncertainty
  inconsistency := k * w.inconsistency
  criticRisk := k * w.criticRisk
  taskComplexity := k * w.taskComplexity
  explicitEscalation := k * w.explicitEscalation

/-- The policy with all weights times one factor. -/
def RoutingPolicy.rescale (k : ℚ) (p : RoutingPolicy) : RoutingPolicy :=
  { p with weights := p.weights.scale k }

/-! ## Steps that keep the order -/

theorem clamp_mono {q r : ℚ} (h : q ≤ r) : clamp q ≤ clamp r :=
  max_le_max le_rfl (min_le_min le_rfl h)

theorem clamp_nonneg (q : ℚ) : 0 ≤ clamp q := le_max_left _ _

theorem clamp_le_one (q : ℚ) : clamp q ≤ 1 := max_le zero_le_one (min_le_left _ _)

theorem mean_mono {xs ys : List ℚ} (h : List.Forall₂ (· ≤ ·) xs ys) : mean xs ≤ mean ys := by
  rw [mean, mean, h.length_eq]
  exact div_le_div_of_nonneg_right h.sum_le_sum (Nat.cast_nonneg _)

/-- What is read off each element of two related lists is related. -/
theorem forall₂_map {α β : Type} {R : α → α → Prop} {S : β → β → Prop} {f : α → β}
    (hf : ∀ a b, R a b → S (f a) (f b)) {xs ys : List α} (h : List.Forall₂ R xs ys) :
    List.Forall₂ S (xs.map f) (ys.map f) := by
  rw [List.forall₂_map_left_iff, List.forall₂_map_right_iff]
  exact h.imp hf

section Samples
variable {ss ts : List Assessment} (h : List.Forall₂ Assessment.Riskier ss ts)
include h

theorem answers_of_riskier : ts.map Assessment.answer = ss.map Assessment.answer := by
  induction h with
  | nil => rfl
  | cons hst _ ih => rw [List.map_cons, List.map_cons, hst.answer, ih]

theorem any_needsEscalation_of_riskier (hany : ss.any Assessment.needsEscalation = true) :
    ts.any Assessment.needsEscalation = true := by
  induction h with
  | nil => exact hany
  | cons hst _ ih =>
      rw [List.any_cons, Bool.or_eq_true] at hany ⊢
      exact hany.imp hst.needsEscalation ih

/-- The statistics that are there are there in both, one by one. -/
theorem tokenStats_of_riskier : List.Forall₂ TokenStats.Riskier
    (ss.filterMap Assessment.tokenStats) (ts.filterMap Assessment.tokenStats) := by
  induction h with
  | nil => exact .nil
  | cons hst _ ih =>
      have hstats := hst.tokenStats
      rw [List.filterMap_cons, List.filterMap_cons]
      revert hstats
      rename_i s t _ _ _
      cases s.tokenStats <;> cases t.tokenStats
      · exact fun _ => ih
      · exact fun hr => nomatch hr
      · exact fun hr => nomatch hr
      · rintro (hr | hr)
        exact .cons hr ih

/-- The tokens counted are the same. -/
theorem counts_of_riskier :
    (ts.map fun s => (s.tokenStats.map TokenStats.count).getD 0) =
      ss.map fun s => (s.tokenStats.map TokenStats.count).getD 0 := by
  induction h with
  | nil => rfl
  | cons hst _ ih =>
      rw [List.map_cons, List.map_cons, ih]
      congr 1
      have hstats := hst.tokenStats
      revert hstats
      rename_i s t _ _ _
      cases s.tokenStats <;> cases t.tokenStats
      · exact fun _ => rfl
      · exact fun hr => nomatch hr
      · exact fun hr => nomatch hr
      · rintro (hr | hr)
        exact hr.count

theorem tokenUncertainty_mono (p : RoutingPolicy) :
    Option.Rel (· ≤ ·) (p.tokenUncertainty ss) (p.tokenUncertainty ts) := by
  have hstats := tokenStats_of_riskier h
  unfold RoutingPolicy.tokenUncertainty
  generalize ss.filterMap Assessment.tokenStats = xs at hstats ⊢
  generalize ts.filterMap Assessment.tokenStats = ys at hstats ⊢
  cases hstats with
  | nil => exact .none
  | cons hxy hrest =>
      have hall := List.Forall₂.cons hxy hrest
      simp only
      refine .some ?_
      cases p.tokenSignal
      · exact clamp_mono (sub_le_sub_left
          (mean_mono (forall₂_map (fun _ _ hr => hr.prob) hall.flip)) 1)
      · exact clamp_mono (mean_mono (forall₂_map (fun _ _ hr => hr.hesitation) hall))

end Samples

theorem pairs_map {α β : Type} (f : α → β) (xs : List α) :
    pairs (xs.map f) = (pairs xs).map (Prod.map f f) := by
  induction xs with
  | nil => rfl
  | cons x xs ih =>
      rw [List.map_cons, pairs, pairs, ih, List.map_append, List.map_map, List.map_map]
      rfl

namespace RoutingPolicy

variable {lib : StdLib} {p : RoutingPolicy}

/-- Inconsistency is about the answers alone. -/
theorem inconsistency_congr {text : Str} {ss ts : List Assessment} {c d : Critique}
    (h : ts.map Assessment.answer = ss.map Assessment.answer) :
    (p.signalValues lib text ss c).inconsistency =
      (p.signalValues lib text ts d).inconsistency := by
  have hpairs : ∀ xs : List Assessment,
      ((pairs xs).map fun ab => agreement lib ab.1.answer ab.2.answer) =
        (pairs (xs.map Assessment.answer)).map fun ab => agreement lib ab.1 ab.2 := by
    intro xs
    rw [pairs_map, List.map_map]
    rfl
  have heq := (hpairs ss).trans ((congrArg _ (congrArg _ h.symm)).trans (hpairs ts).symm)
  have hnil : pairs ss = [] ↔ pairs ts = [] := by
    rw [← List.map_eq_nil_iff, heq, List.map_eq_nil_iff]
  unfold signalValues
  simp only
  split
  · rename_i hs
    rw [hnil.mp hs]
  · rename_i hs
    split
    · rename_i ht
      exact absurd (hnil.mpr ht) hs
    · rw [heq]

/-- Riskier answers and a riskier critique give signals that are at least as high. -/
theorem signalValues_mono {text : Str} {ss ts : List Assessment} {c d : Critique}
    (h : List.Forall₂ Assessment.Riskier ss ts) (hc : c.Riskier d) :
    (p.signalValues lib text ss c).Riskier (p.signalValues lib text ts d) where
  selfUncertainty :=
    sub_le_sub_left (mean_mono (forall₂_map (fun _ _ hr => hr.confidence) h.flip)) 1
  tokenUncertainty := tokenUncertainty_mono h p
  inconsistency := (inconsistency_congr (answers_of_riskier h)).le
  criticRisk := hc.severity
  taskComplexity := le_rfl
  explicitEscalation := by
    have hany := any_needsEscalation_of_riskier h
    simp only [signalValues]
    split
    · rename_i hs
      rw [if_pos (hany hs)]
    · split <;> norm_num

/-- The weights and the signals that are there, multiplied and added up. -/
theorem combine_eq (v : SignalValues) : p.combine v =
    let w := p.weights
    let total := w.selfUncertainty + (v.tokenUncertainty.map fun _ => w.tokenUncertainty).getD 0 +
      w.inconsistency + w.criticRisk + w.taskComplexity + w.explicitEscalation
    let weighted := w.selfUncertainty * v.selfUncertainty +
      (v.tokenUncertainty.map fun u => w.tokenUncertainty * u).getD 0 +
      w.inconsistency * v.inconsistency + w.criticRisk * v.criticRisk +
      w.taskComplexity * v.taskComplexity + w.explicitEscalation * v.explicitEscalation
    if total = 0 then 0 else clamp (weighted / total) := by
  unfold combine
  cases v.tokenUncertainty <;> simp [add_assoc]

theorem combine_mono (hw : p.weights.Nonneg) {v w : SignalValues} (h : v.Riskier w) :
    p.combine v ≤ p.combine w := by
  have htokens := h.tokenUncertainty
  have hself := mul_le_mul_of_nonneg_left h.selfUncertainty hw.selfUncertainty
  have hinc := mul_le_mul_of_nonneg_left h.inconsistency hw.inconsistency
  have hcritic := mul_le_mul_of_nonneg_left h.criticRisk hw.criticRisk
  have hcomplex := mul_le_mul_of_nonneg_left h.taskComplexity hw.taskComplexity
  have hexplicit := mul_le_mul_of_nonneg_left h.explicitEscalation hw.explicitEscalation
  obtain ⟨h₁, h₂, h₃, h₄, h₅, h₆⟩ := hw
  rw [combine_eq, combine_eq]
  generalize v.tokenUncertainty = tv at htokens ⊢
  generalize w.tokenUncertainty = tw at htokens ⊢
  simp only
  cases htokens with
  | none =>
      simp only [Option.map_none, Option.getD_none]
      split
      · exact le_rfl
      · refine clamp_mono (div_le_div_of_nonneg_right ?_ ?_) <;> linarith
  | some hu =>
      have htoken := mul_le_mul_of_nonneg_left hu h₂
      simp only [Option.map_some, Option.getD_some]
      split
      · exact le_rfl
      · refine clamp_mono (div_le_div_of_nonneg_right ?_ ?_) <;> linarith

theorem combine_rescale {k : ℚ} (hk : 0 < k) (v : SignalValues) :
    (p.rescale k).combine v = p.combine v := by
  rw [combine_eq, combine_eq]
  simp only [rescale, Weights.scale]
  cases v.tokenUncertainty with
  | none =>
      simp only [Option.map_none, Option.getD_none, add_zero, mul_assoc, ← mul_add,
        mul_eq_zero, hk.ne', false_or, mul_div_mul_left _ _ hk.ne']
  | some u =>
      simp only [Option.map_some, Option.getD_some, mul_assoc, ← mul_add,
        mul_eq_zero, hk.ne', false_or, mul_div_mul_left _ _ hk.ne']

theorem combine_mem (v : SignalValues) : 0 ≤ p.combine v ∧ p.combine v ≤ 1 := by
  rw [combine_eq]
  simp only
  split
  · exact ⟨le_rfl, zero_le_one⟩
  · exact ⟨clamp_nonneg _, clamp_le_one _⟩

/-- The recorded score is a number between zero and one. -/
theorem combinedScore_mem (text : Str) (samples : List Assessment) (critique : Critique) :
    0 ≤ (p.signals lib text samples critique).combinedScore ∧
      (p.signals lib text samples critique).combinedScore ≤ 1 := by
  obtain ⟨hlow, hhigh⟩ := p.combine_mem (p.signalValues lib text samples critique)
  refine ⟨?_, ?_⟩
  · exact (roundTo_zero 4).symm.le.trans (roundTo_mono hlow)
  · exact (roundTo_mono hhigh).trans (roundTo_one 4).le

/-! ## Rules and decisions -/

/-- The verdict the rules are shown. -/
def shown (lib : StdLib) (p : RoutingPolicy) (tier : Tier) (text : Str)
    (samples : List Assessment) (critique : Critique) : Verdict where
  tier := tier
  samples := samples
  critique := critique
  signals := p.signals lib text samples critique
  threshold := p.threshold tier
  escalate := false
  reason := []

/-- The rules of these kinds escalate or have no opinion. -/
theorem judge_of_escalates {rule : Rule} (hr : rule.Escalates) (v : Verdict) :
    rule.judge v = .ok (some true) ∨ rule.judge v = .ok none := by
  have hite : ∀ (c : Prop) [Decidable c], (if c then some true else none) = some true ∨
      (if c then some true else none) = (none : Option Bool) := by
    intro c _
    by_cases h : c <;> simp [h]
  cases hr with
  | requested => exact (hite _).imp (congrArg Except.ok) (congrArg Except.ok)
  | empty => exact (hite _).imp (congrArg Except.ok) (congrArg Except.ok)
  | critic q => exact (hite _).imp (congrArg Except.ok) (congrArg Except.ok)
  | tokens limit tiers minTokens =>
      unfold tokenUncertaintyAtLeast
      simp only
      cases v.signals.tokenUncertainty with
      | none => exact .inr rfl
      | some u => exact (hite _).imp (congrArg Except.ok) (congrArg Except.ok)

/-- A reason can be given wherever there is a token signal and a limit to show. -/
theorem ruleReason_of_limit {rule : Rule} {v : Verdict} {u limit : ℚ}
    (hu : v.signals.tokenUncertainty = some u) (hl : rule.limit = some limit) :
    ∃ reason, ruleReason rule v = .ok reason := by
  unfold ruleReason
  simp only [hu, hl]
  split_ifs <;> exact ⟨_, rfl⟩

/-- A rule of these kinds that escalates can say why: the token rule only speaks when there
is a number to show. -/
theorem ruleReason_of_escalates {rule : Rule} (hr : rule.Escalates) {v : Verdict}
    (h : rule.judge v = .ok (some true)) : ∃ reason, ruleReason rule v = .ok reason := by
  cases hr with
  | requested => exact ⟨_, rfl⟩
  | empty => exact ⟨_, rfl⟩
  | critic q => exact ⟨_, rfl⟩
  | tokens limit tiers minTokens =>
      unfold tokenUncertaintyAtLeast at h
      cases hu : v.signals.tokenUncertainty with
      | none =>
          simp only [hu] at h
          cases h
      | some u =>
          exact ruleReason_of_limit hu rfl

/-- With rules of these kinds a decision is forced exactly when one of them escalates. -/
theorem forced_of_escalates {v : Verdict} {rules : List Rule}
    (hr : ∀ rule ∈ rules, rule.Escalates) :
    (∃ reason, forced v rules = .ok (some (true, reason))) ∧
        (∃ rule ∈ rules, rule.judge v = .ok (some true)) ∨
      forced v rules = .ok none ∧ ¬ ∃ rule ∈ rules, rule.judge v = .ok (some true) := by
  induction rules with
  | nil => exact .inr ⟨rfl, by simp⟩
  | cons rule rules ih =>
      rcases judge_of_escalates (hr rule (by simp)) v with hj | hj
      · obtain ⟨reason, hreason⟩ := ruleReason_of_escalates (hr rule (by simp)) hj
        refine .inl ⟨⟨reason, ?_⟩, rule, by simp, hj⟩
        unfold forced
        rw [hj]
        show (ruleReason rule v >>= fun r => pure (some (true, r))) = _
        rw [hreason]
        rfl
      · have hstep : forced v (rule :: rules) = forced v rules := by
          conv_lhs => unfold forced
          rw [hj]
          rfl
        have hex : (∃ r ∈ rule :: rules, r.judge v = .ok (some true)) ↔
            ∃ r ∈ rules, r.judge v = .ok (some true) := by
          simp [hj]
        rw [hstep, hex]
        exact ih fun r h => hr r (by simp [h])

/-- What makes a decision escalate when the rules are of these kinds: the goal is big, a rule
says so, or the score reaches the threshold. -/
theorem decide_escalates_iff (hr : ∀ rule ∈ p.rules, rule.Escalates) {tier : Tier} {text : Str}
    {samples : List Assessment} {critique : Critique} (hne : samples ≠ []) :
    (∃ v, p.decide lib tier text samples critique = .ok v ∧ v.escalate = true) ↔
      (p.escalateBigGoals = true ∧ (requestParts lib text : ℤ) ≥ p.bulkParts) ∨
        (∃ rule ∈ p.rules, rule.judge (p.shown lib tier text samples critique) =
          .ok (some true)) ∨
        p.threshold tier ≤ (p.signals lib text samples critique).combinedScore := by
  unfold decide
  rw [if_neg hne]
  simp only
  by_cases hbig : p.escalateBigGoals = true ∧ (requestParts lib text : ℤ) ≥ p.bulkParts
  · rw [if_pos hbig]
    simp [hbig]
  · rw [if_neg hbig]
    rcases forced_of_escalates (v := p.shown lib tier text samples critique) hr with
      ⟨⟨reason, hf⟩, hex⟩ | ⟨hf, hex⟩
    · have hf' : forced _ p.rules = .ok (some (true, reason)) := hf
      unfold shown at hf'
      rw [hf']
      simp [hex, pure, Except.pure, bind, Except.bind]
    · have hf' : forced _ p.rules = .ok none := hf
      unfold shown at hf'
      rw [hf']
      simp [hex, hbig, pure, Except.pure, bind, Except.bind]

/-- A rule that escalates one judgment escalates every riskier one. -/
theorem judge_mono {rule : Rule} (hr : rule.Escalates) {tier : Tier} {text : Str}
    {ss ts : List Assessment} {c d : Critique} (h : List.Forall₂ Assessment.Riskier ss ts)
    (hc : c.Riskier d) (hj : rule.judge (p.shown lib tier text ss c) = .ok (some true)) :
    rule.judge (p.shown lib tier text ts d) = .ok (some true) := by
  have hite : ∀ {q : Prop} [Decidable q], (if q then some true else none) = some true ↔ q := by
    intro q _
    by_cases hq : q <;> simp [hq]
  cases hr with
  | requested =>
      simp only [judge_escalateWhenRequested, Except.ok.injEq, hite] at hj ⊢
      exact any_needsEscalation_of_riskier h hj
  | empty =>
      have hanswer : (p.shown lib tier text ts d).answer = (p.shown lib tier text ss c).answer := by
        have := congrArg List.head? (answers_of_riskier h)
        rw [List.head?_map, List.head?_map] at this
        exact congrArg (Option.getD · []) this
      rw [judge_rejectEmptyAnswers] at hj ⊢
      rwa [hanswer]
  | critic q =>
      simp only [judge_criticFails, Except.ok.injEq, hite, Bool.and_eq_true, Bool.not_eq_true',
        decide_eq_true_eq] at hj ⊢
      obtain ⟨⟨hskip, hpass⟩, hsev⟩ := hj
      refine ⟨⟨hc.skipped.trans hskip, Bool.eq_false_iff.mpr fun hd => ?_⟩,
        hsev.trans hc.severity⟩
      have htrue : c.passed = true := hc.passed hd
      exact Bool.false_ne_true (hpass.symm.trans htrue)
  | tokens limit tiers minTokens =>
      have htokens := tokenUncertainty_mono h p
      have hcounts := counts_of_riskier h
      have hsig : ∀ (ss : List Assessment) (c : Critique),
          (p.shown lib tier text ss c).signals.tokenUncertainty =
            (p.tokenUncertainty ss).map (roundTo 4) := fun _ _ => rfl
      unfold tokenUncertaintyAtLeast at hj ⊢
      simp only [hsig, Except.ok.injEq] at hj ⊢
      generalize p.tokenUncertainty ss = u at htokens hj
      generalize p.tokenUncertainty ts = w at htokens ⊢
      cases htokens with
      | none => exact hj
      | some hu =>
          simp only [Option.map_some, hite] at hj ⊢
          obtain ⟨htier, hlimit, hcount⟩ := hj
          refine ⟨htier, hlimit.trans (roundTo_mono hu), ?_⟩
          show minTokens ≤ (ts.map _).foldl max 0
          rwa [hcounts]

/-- With rules of the four default kinds and weights of which none is negative, a judgment
at least as risky as one that escalates escalates; the score is between zero and one, and
one factor on all weights does not change it. -/
theorem escalation_monotone (lib : StdLib) (p : RoutingPolicy)
    (hr : ∀ rule ∈ p.rules, rule.Escalates) (hw : p.weights.Nonneg) (tier : Tier) (text : Str) :
    (∀ ss ts c d, List.Forall₂ Assessment.Riskier ss ts → Critique.Riskier c d →
      (∃ v, p.decide lib tier text ss c = .ok v ∧ v.escalate = true) →
        ∃ v, p.decide lib tier text ts d = .ok v ∧ v.escalate = true) ∧
      ∀ ss c, (0 ≤ (p.signals lib text ss c).combinedScore ∧
          (p.signals lib text ss c).combinedScore ≤ 1) ∧
        ∀ k, 0 < k → ((p.rescale k).signals lib text ss c).combinedScore =
          (p.signals lib text ss c).combinedScore := by
  refine ⟨fun ss ts c d h hc hv => ?_, fun ss c => ⟨p.combinedScore_mem text ss c, fun k hk => ?_⟩⟩
  · have hss : ss ≠ [] := by
      obtain ⟨v, hv, -⟩ := hv
      exact ne_nil_of_decide hv
    have hts : ts ≠ [] := fun hnil => hss (by simpa [hnil] using h)
    revert hv
    rw [decide_escalates_iff hr hss, decide_escalates_iff hr hts]
    refine Or.imp id (Or.imp ?_ ?_)
    · rintro ⟨rule, hmem, hj⟩
      exact ⟨rule, hmem, judge_mono (hr rule hmem) h hc hj⟩
    · exact fun hs => hs.trans (roundTo_mono (combine_mono hw (signalValues_mono h hc)))
  · exact congrArg (roundTo 4) (combine_rescale hk _)

theorem default_thresholds_mem :
    ∀ t ∈ (30 / 100 : ℚ) :: [(Tier.mid, (25 / 100 : ℚ))].map Prod.snd, 0 ≤ t ∧ t ≤ 1 := by
  intro t ht
  simp only [List.map_cons, List.map_nil, List.mem_cons, List.not_mem_nil, or_false] at ht
  rcases ht with rfl | rfl <;> exact ⟨by norm_num, by norm_num⟩

theorem default_counts_pos : 1 ≤ 2 := by decide

/-- The policy as it is without settings. -/
def unset : RoutingPolicy where
  thresholds_mem := default_thresholds_mem
  localSamples_pos := default_counts_pos
  localWorkerAttempts_pos := default_counts_pos
  planAttempts_pos := default_counts_pos

theorem nonneg_unset : unset.weights.Nonneg := by
  constructor <;> simp only [unset] <;> norm_num

/-- An answer its model is not sure of at all. -/
def unsure : Assessment where
  answer := "4".toList
  confidence := 0
  taskType := []
  difficulty := []
  needsEscalation := false
  reason := []

theorem escalation_monotone_unsure :
    ∃ v, unset.decide asciiLib .small "hi".toList [unsure] ⟨false, 1, [], false, none⟩ = .ok v ∧
      v.escalate = true := by
  refine (escalation_monotone asciiLib unset escalates_defaultRules nonneg_unset .small _).1
    [unsure] [unsure] ⟨false, 1 / 2, [], false, none⟩ _
    (.cons ⟨rfl, le_rfl, id, .none⟩ .nil) ⟨rfl, by norm_num, id⟩ ?_
  refine (decide_escalates_iff escalates_defaultRules (by simp)).mpr
    (.inr (.inl ⟨criticFails (1 / 2), .tail _ (.tail _ (.head _)), ?_⟩))
  rw [judge_criticFails, if_pos (by simp [shown])]

end RoutingPolicy

end HorizonRelay
