import HorizonRelay.Policy.Monotone
import HorizonRelay.Tuning

/-!
# The replayed decision

The tuner decides from signals rounded to four decimals, the policy from the signals themselves
with only the score rounded.  The two can differ by a ten-thousandth; away from the threshold
by more than that, a policy with the usual rules and the settings read off it trust the same
answers.

## Main definitions

* `RoutingPolicy.Tunable` — the policies the tuner's settings describe.
* `Verdict.Clear` — a score that is not at the threshold.

## Main results

* `combiner_near` — the replayed score is on the same side of a threshold.
* `trusts_eq` — the settings trust what the policy trusts.
-/

namespace HorizonRelay

open Py

/-! ## Rounding -/

theorem roundTo_near (q : ℚ) : |roundTo 4 q - q| ≤ 1 / 20000 := by
  have hlow := roundHalfEven_le (q * 10 ^ 4)
  have hhigh := le_roundHalfEven (q * 10 ^ 4)
  have hsplit : roundTo 4 q - q = ((roundHalfEven (q * 10 ^ 4) : ℚ) - q * 10 ^ 4) / 10 ^ 4 := by
    rw [roundTo]
    ring
  rw [hsplit, abs_le]
  constructor
  · rw [le_div_iff₀ (by norm_num)]
    linarith
  · rw [div_le_iff₀ (by norm_num)]
    linarith

/-- The weights of the signals there are. -/
def Weights.total (w : Weights) (v : SignalValues) : ℚ :=
  w.selfUncertainty + (v.tokenUncertainty.map fun _ => w.tokenUncertainty).getD 0 +
    w.inconsistency + w.criticRisk + w.taskComplexity + w.explicitEscalation

/-- The signals there are, weighted and added up. -/
def Weights.weighted (w : Weights) (v : SignalValues) : ℚ :=
  w.selfUncertainty * v.selfUncertainty +
    (v.tokenUncertainty.map fun u => w.tokenUncertainty * u).getD 0 +
    w.inconsistency * v.inconsistency + w.criticRisk * v.criticRisk +
    w.taskComplexity * v.taskComplexity + w.explicitEscalation * v.explicitEscalation

section Score
variable {p : RoutingPolicy} {w : Weights} {v : SignalValues}

theorem combine_mean (v : SignalValues) : p.combine v =
    if p.weights.total v = 0 then 0 else clamp (p.weights.weighted v / p.weights.total v) :=
  RoutingPolicy.combine_eq v

theorem combiner_mean (w : Weights) (v : SignalValues) : Tuning.combiner w v =
    if w.total v = 0 then 0 else min 1 (w.weighted v / w.total v) := by
  unfold Tuning.combiner Weights.total Weights.weighted
  cases v.tokenUncertainty <;> simp [add_assoc]

theorem total_roundSignals : w.total (RoutingPolicy.roundSignals v) = w.total v := by
  unfold Weights.total RoutingPolicy.roundSignals
  cases v.tokenUncertainty <;> rfl

theorem total_nonneg (hw : w.Nonneg) : 0 ≤ w.total v := by
  obtain ⟨h₁, h₂, h₃, h₄, h₅, h₆⟩ := hw
  unfold Weights.total
  cases v.tokenUncertainty <;> simp only [Option.map_none, Option.map_some, Option.getD_none,
    Option.getD_some] <;> linarith

/-- Rounding a signal moves what it adds by its weight in twenty-thousandths. -/
theorem mul_roundTo_near {k : ℚ} (hk : 0 ≤ k) (q : ℚ) :
    |k * roundTo 4 q - k * q| ≤ k * (1 / 20000) := by
  rw [← mul_sub, abs_mul, abs_of_nonneg hk]
  exact mul_le_mul_of_nonneg_left (roundTo_near q) hk

theorem weighted_near (hw : w.Nonneg) :
    |w.weighted (RoutingPolicy.roundSignals v) - w.weighted v| ≤ w.total v * (1 / 20000) := by
  have hself := abs_le.mp (mul_roundTo_near hw.selfUncertainty v.selfUncertainty)
  have hinc := abs_le.mp (mul_roundTo_near hw.inconsistency v.inconsistency)
  have hcritic := abs_le.mp (mul_roundTo_near hw.criticRisk v.criticRisk)
  have hcomplex := abs_le.mp (mul_roundTo_near hw.taskComplexity v.taskComplexity)
  have hexplicit := abs_le.mp (mul_roundTo_near hw.explicitEscalation v.explicitEscalation)
  rw [abs_le]
  unfold Weights.weighted Weights.total RoutingPolicy.roundSignals
  cases htoken : v.tokenUncertainty with
  | none =>
      simp only [Option.map_none, Option.getD_none]
      constructor <;> linarith
  | some u =>
      have htokens := abs_le.mp (mul_roundTo_near hw.tokenUncertainty u)
      simp only [Option.map_some, Option.getD_some]
      constructor <;> linarith

/-- **The replayed score** is on the same side of a threshold as the recorded one, if that is
further from it than a ten-thousandth. -/
theorem combiner_near (hw : p.weights.Nonneg) {limit : ℚ} (h₀ : 0 ≤ limit) (h₁ : limit ≤ 1)
    (hclear : limit + 1 / 10000 ≤ roundTo 4 (p.combine v) ∨
      roundTo 4 (p.combine v) + 1 / 10000 < limit) :
    Tuning.combiner p.weights (RoutingPolicy.roundSignals v) < limit ↔
      roundTo 4 (p.combine v) < limit := by
  have hround := abs_le.mp (roundTo_near (p.combine v))
  rw [combiner_mean, total_roundSignals]
  by_cases htotal : p.weights.total v = 0
  · have hscore : p.combine v = 0 := by rw [combine_mean, if_pos htotal]
    rw [if_pos htotal, hscore, roundTo_zero]
  rw [if_neg htotal]
  have hpos : 0 < p.weights.total v := lt_of_le_of_ne (total_nonneg hw) (Ne.symm htotal)
  have hscore : p.combine v = clamp (p.weights.weighted v / p.weights.total v) := by
    rw [combine_mean, if_neg htotal]
  have hnear : |p.weights.weighted (RoutingPolicy.roundSignals v) / p.weights.total v -
      p.weights.weighted v / p.weights.total v| ≤ 1 / 20000 := by
    rw [← sub_div, abs_div, abs_of_pos hpos, div_le_iff₀ hpos, mul_comm]
    exact weighted_near hw
  obtain ⟨hlow, hhigh⟩ := abs_le.mp hnear
  rw [hscore] at hround hclear ⊢
  generalize p.weights.weighted (RoutingPolicy.roundSignals v) / p.weights.total v = a
    at hlow hhigh ⊢
  generalize p.weights.weighted v / p.weights.total v = b at *
  generalize roundTo 4 (clamp b) = score at *
  rcases hclear with hclear | hclear
  · -- the score is above: so are both means, and no mean above is cut below the threshold
    have hb : limit + 1 / 20000 ≤ clamp b := by linarith
    have ha : limit ≤ a := by
      have : clamp b ≤ b := by
        by_contra hlt
        have hneg : b < 0 := by
          rcases le_or_gt 0 b with h | h
          · exact absurd (max_le h (min_le_right 1 b)) hlt
          · exact h
        have hzero : clamp b = 0 := max_eq_left ((min_le_right 1 b).trans hneg.le)
        linarith
      linarith
    constructor
    · intro h
      exact absurd h (not_lt.mpr (le_min h₁ ha))
    · intro h
      linarith
  · have hb : clamp b < limit - 1 / 20000 := by linarith
    have ha : a < limit := by
      have : b ≤ clamp b := by
        by_contra hlt
        have hone : 1 < b := by
          rcases le_or_gt b 1 with h | h
          · exact absurd ((le_min h le_rfl).trans (le_max_right 0 _)) hlt
          · exact h
        have hcut : clamp b = 1 := by
          rw [clamp, min_eq_left hone.le]
          exact max_eq_right zero_le_one
        linarith
      linarith
    constructor
    · intro _
      linarith
    · intro _
      exact (min_le_right 1 a).trans_lt ha

end Score

/-! ## Rules -/

/-- A rule the tuner's settings can describe. -/
inductive Rule.Tuned : Rule → Prop
  | requested : Tuned escalateWhenRequested
  | empty : Tuned rejectEmptyAnswers
  | critic (least : ℚ) : Tuned (criticFails least)
  | tokens (most : ℚ) {least : ℕ} (h : 0 < least) :
      Tuned (tokenUncertaintyAtLeast most [.small] least)

/-- The policies the tuner's settings describe: the usual rules, no two different ones of one
name, and the two that the settings take for granted. -/
structure RoutingPolicy.Tunable (p : RoutingPolicy) : Prop where
  known : ∀ rule ∈ p.rules, rule.Tuned
  distinct : ∀ rule ∈ p.rules, ∀ rule' ∈ p.rules, rule.name = rule'.name → rule = rule'
  requested : escalateWhenRequested ∈ p.rules
  empty : rejectEmptyAnswers ∈ p.rules
  weights : p.weights.Nonneg

/-- A score that is not at the threshold. -/
def Verdict.Clear (v : Verdict) : Prop :=
  v.threshold + 1 / 10000 ≤ v.signals.combinedScore ∨
    v.signals.combinedScore + 1 / 10000 < v.threshold

theorem Rule.Tuned.escalates {rule : Rule} (h : rule.Tuned) : rule.Escalates := by
  cases h with
  | requested => exact .requested
  | empty => exact .empty
  | critic least => exact .critic least
  | tokens most h => exact .tokens most _ _

/-- The name of a rule tells its kind. -/
theorem Rule.Tuned.of_critic {rule : Rule} (h : rule.Tuned)
    (hname : rule.name = "escalate_when_critic_rejects".toList) :
    ∃ least, rule = criticFails least := by
  cases h with
  | critic least => exact ⟨least, rfl⟩
  | requested | empty => exact absurd hname (by decide)
  | tokens most hpos =>
      have hname : "escalate_when_tokens_are_uncertain".toList =
        "escalate_when_critic_rejects".toList := hname
      exact absurd hname (by decide)

theorem Rule.Tuned.of_tokens {rule : Rule} (h : rule.Tuned)
    (hname : rule.name = "escalate_when_tokens_are_uncertain".toList) :
    ∃ most least, 0 < least ∧ rule = tokenUncertaintyAtLeast most [.small] least := by
  cases h with
  | tokens most h => exact ⟨most, _, h, rfl⟩
  | requested | empty => exact absurd hname (by decide)
  | critic least =>
      have hname : "escalate_when_critic_rejects".toList =
        "escalate_when_tokens_are_uncertain".toList := hname
      exact absurd hname (by decide)

namespace Tuning

variable {p : RoutingPolicy} {q : Params} {α : Type} {name : Str} {attr : Rule → Option α}

/-- What is read off the rules of a name is the attribute of one of them. -/
theorem ruleLimit_eq_ok {limit : Option α} (h : ruleLimit p name attr = .ok limit) :
    (∃ rule ∈ p.rules, rule.name = name ∧ attr rule = limit ∧ limit.isSome) ∨
      limit = none ∧ ∀ rule ∈ p.rules, rule.name ≠ name := by
  unfold ruleLimit at h
  split at h
  · rename_i rule hfind
    split at h
    · rename_i m hm
      cases h
      exact .inl ⟨rule, List.mem_of_find?_eq_some hfind, by simpa using List.find?_some hfind,
        hm, rfl⟩
    · cases h
  · rename_i hfind
    cases h
    exact .inr ⟨rfl, fun rule hr => by simpa using List.find?_eq_none.mp hfind rule hr⟩

/-- The settings read off a policy. -/
structure Reads (q : Params) (p : RoutingPolicy) : Prop where
  weights : q.weights = p.weights
  thresholds : ∀ tier, tier ≠ .cloud → q.thresholds.of tier = p.threshold tier
  skipSmallAbove : q.skipSmallAbove = p.skipSmallAbove
  tokenSignal : q.tokenSignal = none
  bigGoalParts : q.bigGoalParts = none
  critic : ∀ least, q.criticMin = some least ↔ criticFails least ∈ p.rules
  tokens : ∀ most, q.tokenMax = some most ↔
    tokenUncertaintyAtLeast most [.small] q.tokenMinLength ∈ p.rules
  /-- The token rule has no other bounds. -/
  sole : ∀ most least, tokenUncertaintyAtLeast most [.small] least ∈ p.rules →
    least = q.tokenMinLength

/-- **The settings of a tunable policy** say what its rules are. -/
theorem reads_of_current (hp : p.Tunable) (h : current p = .ok q) : Reads q p := by
  unfold current at h
  obtain ⟨criticMin, hcritic, h⟩ := bind_eq_ok.mp h
  obtain ⟨tokenMax, hmost, h⟩ := bind_eq_ok.mp h
  obtain ⟨minTokens, hleast, h⟩ := bind_eq_ok.mp h
  obtain rfl := Except.ok.inj h
  have htoken : ∀ most least, tokenUncertaintyAtLeast most [.small] least ∈ p.rules →
      tokenMax = some most ∧ minTokens = some least ∧ 0 < least := by
    intro most least hmem
    have hpos : 0 < least := by
      obtain ⟨most', least', hpos, heq⟩ := (hp.known _ hmem).of_tokens rfl
      have : some least = some least' := congrArg Rule.minTokens heq
      cases this
      exact hpos
    rcases ruleLimit_eq_ok hmost with ⟨rule, hr, hname, rfl, -⟩ | ⟨-, hnone⟩
    · rcases ruleLimit_eq_ok hleast with ⟨rule', hr', hname', rfl, -⟩ | ⟨-, hnone⟩
      · rw [hp.distinct _ hr _ hmem hname, hp.distinct _ hr' _ hmem hname']
        exact ⟨rfl, rfl, hpos⟩
      · exact absurd rfl (hnone _ hmem)
    · exact absurd rfl (hnone _ hmem)
  have hlength : ∀ {least : ℕ}, 0 < least → minTokens = some least →
      (if minTokens.getD 0 = 0 then 1 else minTokens.getD 0) = least := by
    rintro least hpos rfl
    exact if_neg hpos.ne'
  refine
    { weights := rfl, skipSmallAbove := rfl, tokenSignal := rfl, bigGoalParts := rfl
      thresholds := fun tier htier => ?_, critic := fun least => ⟨fun h => ?_, fun hmem => ?_⟩
      tokens := fun most => ⟨fun h => ?_, fun hmem => (htoken _ _ hmem).1⟩
      sole := fun most least hmem => ?_ }
  · cases tier with
    | cloud => exact absurd rfl htier
    | small | mid => rfl
  · rcases ruleLimit_eq_ok hcritic with ⟨rule, hr, hname, hattr, -⟩ | ⟨hnone, -⟩
    · obtain ⟨least', rfl⟩ := (hp.known _ hr).of_critic hname
      have : some least' = some least := hattr.trans h
      cases this
      exact hr
    · rw [hnone] at h
      cases h
  · rcases ruleLimit_eq_ok hcritic with ⟨rule, hr, hname, hattr, -⟩ | ⟨-, hnone⟩
    · rw [hp.distinct _ hr _ hmem hname] at hattr
      exact hattr.symm
    · exact absurd rfl (hnone _ hmem)
  · rcases ruleLimit_eq_ok hmost with ⟨rule, hr, hname, hattr, -⟩ | ⟨hnone, -⟩
    · obtain ⟨most', least, hpos, rfl⟩ := (hp.known _ hr).of_tokens hname
      obtain ⟨-, hmin, -⟩ := htoken _ _ hr
      have : some most' = some most := hattr.trans h
      cases this
      simp only [hlength hpos hmin]
      exact hr
    · rw [hnone] at h
      cases h
  · obtain ⟨-, hmin, hpos⟩ := htoken _ _ hmem
    exact (hlength hpos hmin).symm

/-! ## One answer -/

section Answer
variable {lib : StdLib} {tier : Tier} {text : Str} {samples : List Assessment}
  {critique : Critique} {v : Verdict}

/-- What a verdict shows. -/
theorem shown_of_decide (h : p.decide lib tier text samples critique = .ok v) :
    v.signals = p.signals lib text samples critique ∧ v.threshold = p.threshold tier := by
  have hne := RoutingPolicy.ne_nil_of_decide h
  unfold RoutingPolicy.decide at h
  rw [if_neg hne] at h
  simp only at h
  split at h
  · cases h
    exact ⟨rfl, rfl⟩
  · obtain ⟨forced, -, h⟩ := bind_eq_ok.mp h
    cases forced with
    | none =>
        cases h
        exact ⟨rfl, rfl⟩
    | some b =>
        cases h
        exact ⟨rfl, rfl⟩

/-- A rule that speaks when a condition holds. -/
theorem judges_iff {c : Prop} [Decidable c] :
    (.ok (if c then some true else none) : Except Exc (Option Bool)) = .ok (some true) ↔ c := by
  by_cases hc : c <;> simp [hc]

theorem tokens_judge_iff {most : ℚ} {least : ℕ} {v : Verdict} :
    (tokenUncertaintyAtLeast most [.small] least).judge v = .ok (some true) ↔
      v.tier = .small ∧ (∃ u, v.signals.tokenUncertainty = some u ∧ most ≤ u) ∧
        least ≤ (v.samples.map fun s =>
          (s.tokenStats.map TokenStats.count).getD 0).foldl max 0 := by
  unfold tokenUncertaintyAtLeast
  simp only
  cases v.signals.tokenUncertainty with
  | none => simp
  | some u =>
      simp only [Option.some.injEq, exists_eq_left', judges_iff, List.contains_cons,
        List.contains_nil, Bool.or_false, beq_iff_eq, ge_iff_le]

/-- **The rules of a policy**, as the settings have them. -/
theorem rules_iff (hp : p.Tunable) (hq : Reads q p) {v : Verdict} :
    (∃ rule ∈ p.rules, rule.judge v = .ok (some true)) ↔
      v.samples.any Assessment.needsEscalation = true ∨ v.answer.strip.isEmpty = true ∨
      (∃ least, q.criticMin = some least ∧ v.critique.skipped = false ∧
        v.critique.passed = false ∧ least ≤ v.critique.severity) ∨
      (v.tier = .small ∧ ∃ most u, q.tokenMax = some most ∧ v.signals.tokenUncertainty = some u ∧
        most ≤ u ∧ q.tokenMinLength ≤ (v.samples.map fun s =>
          (s.tokenStats.map TokenStats.count).getD 0).foldl max 0) := by
  constructor
  · rintro ⟨rule, hr, hj⟩
    cases hp.known rule hr with
    | requested => exact .inl (judges_iff.mp hj)
    | empty => exact .inr (.inl (judges_iff.mp hj))
    | critic least =>
        have hj := judges_iff.mp hj
        simp only [Bool.and_eq_true, Bool.not_eq_true', decide_eq_true_eq] at hj
        exact .inr (.inr (.inl ⟨least, (hq.critic least).mpr hr, hj.1.1, hj.1.2, hj.2⟩))
    | tokens most hpos =>
        rename_i least
        obtain rfl := hq.sole most least hr
        obtain ⟨htier, ⟨u, hu, hmost⟩, hleast⟩ := tokens_judge_iff.mp hj
        exact .inr (.inr (.inr ⟨htier, most, u, (hq.tokens most).mpr hr, hu, hmost, hleast⟩))
  · rintro (h | h | ⟨least, hleast, hskip, hpass, hsev⟩ | ⟨htier, most, u, hmost, hu, hle, hlen⟩)
    · exact ⟨_, hp.requested, judges_iff.mpr h⟩
    · exact ⟨_, hp.empty, judges_iff.mpr h⟩
    · refine ⟨_, (hq.critic least).mp hleast, judges_iff.mpr ?_⟩
      simp [hskip, hpass, hsev]
    · exact ⟨_, (hq.tokens most).mp hmost, tokens_judge_iff.mpr ⟨htier, ⟨u, hu, hle⟩, hlen⟩⟩

theorem threshold_mem (p : RoutingPolicy) (tier : Tier) :
    0 ≤ p.threshold tier ∧ p.threshold tier ≤ 1 := by
  unfold RoutingPolicy.threshold
  cases h : p.tierThresholds.lookup tier with
  | none => exact p.thresholds_mem _ (by simp)
  | some t =>
      have hmem : (tier, t) ∈ p.tierThresholds := Dict.mem_of_lookup h
      exact p.thresholds_mem t (List.mem_cons_of_mem _ (List.mem_map_of_mem hmem))

/-- When settings trust what is kept of a verdict. -/
theorem trusts_iff (hq : Reads q p) (hit : Str → Str → Bool) (case : TestCase) :
    trusts q tier (profileTier hit case v) = true ↔
      ¬ (v.samples.any Assessment.needsEscalation = true ∨ v.answer.strip.isEmpty = true ∨
        (∃ least, q.criticMin = some least ∧ v.critique.skipped = false ∧
          v.critique.passed = false ∧ least ≤ v.critique.severity) ∨
        (tier = .small ∧ ∃ most u, q.tokenMax = some most ∧
          v.signals.tokenUncertainty = some u ∧ most ≤ u ∧
          q.tokenMinLength ≤ (v.samples.map fun s =>
            (s.tokenStats.map TokenStats.count).getD 0).foldl max 0)) ∧
        combiner p.weights v.signals.toSignalValues < q.thresholds.of tier := by
  have hsignals : signalsOf q (profileTier hit case v) = v.signals.toSignalValues := by
    rw [signalsOf, hq.tokenSignal]
    exact if_neg (by simp)
  have hrejects : rejects q (profileTier hit case v) = true ↔ ∃ least, q.criticMin = some least ∧
      v.critique.skipped = false ∧ v.critique.passed = false ∧ least ≤ v.critique.severity := by
    unfold rejects profileTier
    cases q.criticMin <;> simp [and_assoc]
  have hhesitates : hesitates q tier (profileTier hit case v) = true ↔
      tier = .small ∧ ∃ most u, q.tokenMax = some most ∧ v.signals.tokenUncertainty = some u ∧
        most ≤ u ∧ q.tokenMinLength ≤ (v.samples.map fun s =>
          (s.tokenStats.map TokenStats.count).getD 0).foldl max 0 := by
    unfold hesitates
    rw [hsignals]
    unfold profileTier
    cases q.tokenMax <;> cases v.signals.tokenUncertainty <;> simp
  unfold trusts
  rw [hsignals, hq.weights, ← hrejects, ← hhesitates]
  simp [profileTier, and_assoc]

/-- When a decision about a goal that is not big escalates, told of its own verdict. -/
theorem escalates_iff (hp : p.Tunable) (hq : Reads q p)
    (hv : p.decide lib tier text samples critique = .ok v)
    (hsmall : ¬ (p.escalateBigGoals = true ∧ (requestParts lib text : ℤ) ≥ p.bulkParts)) :
    v.escalate = true ↔ (∃ rule ∈ p.rules, rule.judge v = .ok (some true)) ∨
      v.threshold ≤ v.signals.combinedScore := by
  obtain ⟨hsignals, hthreshold⟩ := shown_of_decide hv
  obtain ⟨hvtier, hsamples, hcritique⟩ := RoutingPolicy.decide_eq_ok hv
  have hiff : (∃ w, p.decide lib tier text samples critique = .ok w ∧ w.escalate = true) ↔ _ :=
    RoutingPolicy.decide_escalates_iff (fun rule hr => (hp.known rule hr).escalates)
      (RoutingPolicy.ne_nil_of_decide hv)
  -- the rules judged the same before the decision was added to the verdict
  have hrules : (∃ rule ∈ p.rules,
        rule.judge (p.shown lib tier text samples critique) = .ok (some true)) ↔
      ∃ rule ∈ p.rules, rule.judge v = .ok (some true) := by
    rw [rules_iff hp hq, rules_iff hp hq]
    simp only [RoutingPolicy.shown, Verdict.answer, hvtier, hsamples, hcritique, hsignals]
  rw [hrules, or_iff_right hsmall, ← hsignals, ← hthreshold] at hiff
  rw [← hiff]
  constructor
  · intro h
    exact ⟨v, hv, h⟩
  · intro h
    obtain ⟨w, hw, hesc⟩ := h
    have hsame : w = v := Except.ok.inj (hw.symm.trans hv)
    rwa [hsame] at hesc

/-- **The settings read off a policy trust what the policy trusts**, unless the goal is big or
the score is at the threshold. -/
theorem trusts_eq (hp : p.Tunable) (hq : Reads q p) (hit : Str → Str → Bool) (case : TestCase)
    (htier : tier ≠ .cloud) (hv : p.decide lib tier text samples critique = .ok v)
    (hsmall : ¬ (p.escalateBigGoals = true ∧ (requestParts lib text : ℤ) ≥ p.bulkParts))
    (hclear : v.Clear) : trusts q tier (profileTier hit case v) = !v.escalate := by
  obtain ⟨hsignals, hthreshold⟩ := shown_of_decide hv
  obtain ⟨hvtier, -, -⟩ := RoutingPolicy.decide_eq_ok hv
  obtain ⟨h₀, h₁⟩ := threshold_mem p tier
  -- the replayed score is on the same side of the threshold
  have hscore : combiner p.weights v.signals.toSignalValues < q.thresholds.of tier ↔
      v.signals.combinedScore < v.threshold := by
    rw [hq.thresholds tier htier, hthreshold, hsignals]
    refine combiner_near hp.weights h₀ h₁ ?_
    rw [Verdict.Clear, hthreshold, hsignals] at hclear
    exact hclear
  have hkeeps : (!v.escalate) = true ↔ ¬ v.escalate = true := by simp
  rw [Bool.eq_iff_iff, trusts_iff hq, hscore, hkeeps, escalates_iff hp hq hv hsmall,
    rules_iff hp hq, hvtier, ← not_le]
  exact not_or.symm

end Answer

end Tuning

end HorizonRelay
