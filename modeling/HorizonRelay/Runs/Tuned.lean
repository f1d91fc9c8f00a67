import HorizonRelay.Policy.Replay
import HorizonRelay.Runs.Judged

/-!
# Tuning replays the router

What the tuner's replay says of a profiled request is where a run of the policy answers it:
the probe that made the profile and the run ask the local models the same things, so while the
provider answers alike they judge the same answers.

## Main results

* `profile_of_probe` — a probe that went through all local models profiles each as judged.
* `tuning_replays` — the replayed route is the run's.
-/

namespace HorizonRelay

open Py Coop

variable {relay : Relay} {request : RelayRequest} {f : Tier → Payload → Choice}
  {hit : Str → Str → Bool} {case : TestCase} {emit onDelta : Bool} {tier : Tier} {c c₀ : State}

/-! ## The probe asks the same -/

section Probe

/-- The run that is profiled. -/
abbrev Relay.probing (relay : Relay) (request : RelayRequest) : Setup :=
  relay.probe.setup request true false

theorem draws_probing (emit onDelta : Bool) (n i : ℕ) : (relay.probing request).draws f tier n i =
    (relay.setup request emit onDelta).draws f tier n i := by
  induction n generalizing i with
  | zero => rfl
  | succ n ih =>
      unfold Setup.draws
      simp only [ih]
      rfl

/-- The probe sees of a local model what the run sees. -/
theorem judged_probing {v₀ v : Verdict} (h₀ : (relay.probing request).judged f tier = .ok v₀)
    (h : (relay.setup request emit onDelta).judged f tier = .ok v) :
    v₀.samples = v.samples ∧ v₀.critique = v.critique ∧ v₀.signals = v.signals := by
  unfold Setup.judged at h₀ h
  obtain ⟨samples₀, hs₀, h₀⟩ := bind_eq_ok.mp h₀
  obtain ⟨critique₀, hc₀, h₀⟩ := bind_eq_ok.mp h₀
  obtain ⟨samples, hs, h⟩ := bind_eq_ok.mp h
  obtain ⟨critique, hc, h⟩ := bind_eq_ok.mp h
  have hdraws : samples₀ = samples := by
    have hs₀ := (draws_probing emit onDelta _ _).symm.trans hs₀
    exact Except.ok.inj (hs₀.symm.trans hs)
  subst hdraws
  have hcritique : critique₀ = critique := Except.ok.inj (hc₀.symm.trans hc)
  subst hcritique
  obtain ⟨-, hsamples₀, hcritique₀⟩ := RoutingPolicy.decide_eq_ok h₀
  obtain ⟨-, hsamples, hcritique⟩ := RoutingPolicy.decide_eq_ok h
  refine ⟨hsamples₀.trans hsamples.symm, hcritique₀.trans hcritique.symm, ?_⟩
  rw [(Tuning.shown_of_decide h₀).1, (Tuning.shown_of_decide h).1]
  rfl

theorem profileTier_congr {v w : Verdict} (hs : v.samples = w.samples)
    (hc : v.critique = w.critique) (hsig : v.signals = w.signals) :
    profileTier hit case v = profileTier hit case w := by
  simp only [profileTier, Verdict.answer, hs, hc, hsig]

/-- A probe passes over no local model. -/
theorem passesOver_probing (relay : Relay) (request : RelayRequest) (tier : Tier) :
    (relay.probing request).passesOver tier = false := rfl

/-- Once the probe has gone on to the cloud, it has told what it judged of each local model. -/
theorem told_of_probe (h : (relay.probing request).system.Reach {} (Replies f) c₀)
    (hroute : c₀.shared.route = some .cloud) (ht : tier ∈ (relay.probing request).locals) :
    ∃ v w, .localVerdict tier v w ∈ told c₀.shared.log := by
  have hjudged := judged_of_reach h
  obtain ⟨hall, -⟩ := (Setup.Reachable.ok h.any).main.cloud hroute
  have hnone : c₀.shared.skipped = [] := by
    refine List.eq_nil_iff_forall_not_mem.mpr fun t hmem => ?_
    have hpass := hjudged.skipped t hmem
    rw [passesOver_probing] at hpass
    cases hpass
  have hmem : tier ∈ c₀.shared.verdicts.map Verdict.tier := by
    have hall : c₀.shared.skipped ++ c₀.shared.verdicts.map Verdict.tier =
        (relay.probing request).locals := hall
    rwa [← hall, hnone] at ht
  obtain ⟨v, hv, rfl⟩ := List.mem_map.mp hmem
  obtain ⟨w, hw⟩ := hjudged.announced rfl v hv
  exact ⟨v, w, hw⟩

/-- **The profile of a probe** that went through all local models has what was judged of each,
and of no other tier. -/
theorem profile_of_probe (hit : Str → Str → Bool) (case : TestCase)
    (h : (relay.probing request).system.Reach {} (Replies f) c₀)
    (hroute : c₀.shared.route = some .cloud) :
    (∀ tier, tier ∈ (profileCase relay.lib hit case (told c₀.shared.log)).tiers.keys ↔
      tier ∈ (relay.probing request).locals) ∧
    ∀ tier ∈ (relay.probing request).locals, ∃ v,
      (relay.probing request).judged f tier = .ok v ∧
      (profileCase relay.lib hit case (told c₀.shared.log)).tiers.get? tier =
        some (profileTier hit case v) := by
  have hjudged := judged_of_reach h
  -- what was kept of a tier is a verdict that was told
  have hverdict : ∀ {tier : Tier} {t : TierProfile},
      (profileCase relay.lib hit case (told c₀.shared.log)).tiers.get? tier = some t →
      ∃ v, tier ∈ (relay.probing request).locals ∧
        (relay.probing request).judged f tier = .ok v ∧ t = profileTier hit case v := by
    intro tier t ht
    rw [profileCase, Dict.get?_ofList_map] at ht
    obtain ⟨v, hv, rfl⟩ := Option.map_eq_some_iff.mp ht
    rw [Dict.get?_ofList] at hv
    obtain ⟨d, hd, hdv⟩ := List.mem_filterMap.mp (List.mem_reverse.mp (Dict.mem_of_lookup hv))
    obtain ⟨w, rfl⟩ : ∃ w, d = .localVerdict tier v w := by
      cases d <;> simp [EventData.verdict?] at hdv
      obtain ⟨rfl, rfl⟩ := hdv
      exact ⟨_, rfl⟩
    obtain ⟨hlocal, hv⟩ := hjudged.heard tier v w hd
    exact ⟨v, hlocal, hv, rfl⟩
  -- and every local tier was told of
  have hkept : ∀ tier ∈ (relay.probing request).locals, ∃ t,
      (profileCase relay.lib hit case (told c₀.shared.log)).tiers.get? tier = some t := by
    intro tier ht
    obtain ⟨v, w, hw⟩ := told_of_probe h hroute ht
    have hmem : tier ∈ (Dict.ofList ((told c₀.shared.log).filterMap EventData.verdict?)).keys :=
      Dict.mem_keys_ofList.mpr (List.mem_map.mpr
        ⟨(tier, v), List.mem_filterMap.mpr ⟨_, hw, rfl⟩, rfl⟩)
    obtain ⟨v', hv'⟩ := Dict.mem_keys_iff.mp hmem
    exact ⟨profileTier hit case v', by rw [profileCase, Dict.get?_ofList_map, hv']; rfl⟩
  refine ⟨fun tier => ⟨fun hmem => ?_, fun ht => Dict.mem_keys_iff.mpr (hkept tier ht)⟩,
    fun tier ht => ?_⟩
  · obtain ⟨t, ht⟩ := Dict.mem_keys_iff.mp hmem
    obtain ⟨v, hlocal, -⟩ := hverdict ht
    exact hlocal
  · obtain ⟨t, hget⟩ := hkept tier ht
    obtain ⟨v, -, hv, rfl⟩ := hverdict hget
    exact ⟨v, hv, hget⟩

end Probe

/-! ## The replayed route -/

/-- Looking for the first entry that passes, with its place in sight. -/
theorem find?_zipIdx_map {α : Type} {P : α → ℕ → Bool} {Q : α → Bool} {l : List α} (n : ℕ)
    (h : ∀ i a, l[i]? = some a → P a (n + i) = Q a) :
    ((l.zipIdx n).find? fun e => P e.1 e.2).map Prod.fst = l.find? Q := by
  induction l generalizing n with
  | nil => rfl
  | cons a l ih =>
      have hhead : P a n = Q a := h 0 a rfl
      have hrest := ih (n + 1) fun i b hb => by
        rw [Nat.add_assoc, Nat.add_comm 1 i]
        exact h (i + 1) b (by simpa using hb)
      rw [List.zipIdx_cons]
      by_cases hq : Q a = true
      · rw [List.find?_cons_of_pos (by simpa [hhead] using hq), List.find?_cons_of_pos hq]
        rfl
      · rw [List.find?_cons_of_neg (by simpa [hhead] using hq), List.find?_cons_of_neg hq]
        exact hrest

/-- The local tiers, as the replay finds them. -/
theorem filter_locals {x : Setup} {p : Tier → Bool} (h : ∀ t, p t = true ↔ t ∈ x.locals) :
    [Tier.small, .mid].filter p = x.locals := by
  have hsub : x.locals.Sublist [.small, .mid] := by
    rw [show [Tier.small, .mid] = tierOrder.filter (· ≠ .cloud) by decide]
    exact (availableTiers_sublist x.provider.models).filter _
  have hall : ∀ l ∈ [Tier.small, .mid].sublists, [Tier.small, .mid].filter (· ∈ l) = l := by
    decide
  rw [← hall _ (List.mem_sublists.mpr hsub)]
  refine List.filter_congr fun t _ => ?_
  rw [Bool.eq_iff_iff, h, decide_eq_true_eq]

/-- The replay of a profile that has the local tiers of a run passes over what the run passes
over. -/
theorem simulate_eq {x : Setup} {q : Tuning.Params} {prof : Profile}
    (hq : Tuning.Reads q x.policy) (hcomplex : prof.complexity = taskComplexity x.lib x.text)
    (hkeys : ∀ tier, tier ∈ prof.tiers.keys ↔ tier ∈ x.locals) :
    Tuning.simulate q prof = (x.locals.find? fun t => !x.passesOver t &&
      (prof.tiers.get? t).any (Tuning.trusts q t)).getD .cloud := by
  have hlocals : [Tier.small, .mid].filter (· ∈ prof.tiers.keys) = x.locals :=
    filter_locals fun t => by rw [decide_eq_true_eq, hkeys]
  unfold Tuning.simulate
  rw [hq.bigGoalParts, hlocals]
  simp only [Option.any_none, Bool.false_eq_true, if_false]
  congr 1
  refine find?_zipIdx_map (P := fun t i => !(i = 0 && x.locals.length > 1 &&
    q.skipSmallAbove.any fun limit => prof.complexity ≥ limit) &&
      (prof.tiers.get? t).any (Tuning.trusts q t)) 0 fun i t hi => ?_
  -- only the first tier is ever passed over
  have hfirst : i = 0 ↔ x.locals.head? = some t := by
    have hnodup : x.locals.Nodup := localTiers_nodup _
    constructor
    · rintro rfl
      rw [List.head?_eq_getElem?]
      exact hi
    · intro hhead
      rw [List.head?_eq_getElem?] at hhead
      exact (List.getElem?_inj (List.getElem?_eq_some_iff.mp hi).1 hnodup).mp (hi.trans hhead.symm)
  have hpass : x.passesOver t = (x.locals.length > 1 && x.locals.head? = some t &&
      q.skipSmallAbove.any fun limit => prof.complexity ≥ limit) := by
    rw [Setup.passesOver, RoutingPolicy.skips, hq.skipSmallAbove, hcomplex, Bool.eq_iff_iff]
    cases x.policy.skipSmallAbove with
    | none => simp
    | some limit =>
        simp only [Option.any_some, Bool.and_eq_true, decide_eq_true_eq]
        exact Iff.rfl
  rw [hpass, Nat.zero_add]
  by_cases hi : i = 0
  · simp [hi, hfirst.mp hi]
  · simp [hi, mt hfirst.mpr hi]

/-- A request that is no extraction accepts none. -/
theorem not_extracted_of_plain {x : Setup} {l : Ledger} (h : l.Ok x anyEnd)
    (hx : x.localExtract = false) (a : Str) : ¬ l.Extracted x a := by
  rintro ⟨d, v, hd, hp, -, -⟩
  have hslot := h.main.schedule.subset (List.mem_map_of_mem hd)
  rw [Call.slot, hp] at hslot
  simp [Setup.schedule, Setup.localSlots, Setup.cloudSlots, Setup.judgeSlots, hx, Payload.slot]
    at hslot

/-- A prompt that is shown to the local models as it is. -/
structure TestCase.Plain (case : TestCase) : Prop where
  nonempty : case.prompt ≠ []
  stripped : case.prompt.strip = case.prompt
  /-- It does not ask for an extraction. -/
  question : (localExtractCommand ++ [' ']).isPrefixOf case.prompt = false

/-- A goal that is always taken to the cloud. -/
def RoutingPolicy.TakesAway (p : RoutingPolicy) (lib : StdLib) (text : Str) : Prop :=
  p.escalateBigGoals = true ∧ (requestParts lib text : ℤ) ≥ p.bulkParts

instance (p : RoutingPolicy) (lib : StdLib) (text : Str) : Decidable (p.TakesAway lib text) :=
  inferInstanceAs (Decidable (_ ∧ _))

/-- No local answer to a big goal is trusted. -/
theorem escalate_of_takesAway {p : RoutingPolicy} {lib : StdLib} {text : Str}
    (h : p.TakesAway lib text) {samples : List Assessment} {critique : Critique} {v : Verdict}
    (hv : p.decide lib tier text samples critique = .ok v) : v.escalate = true := by
  have hbig : p.escalateBigGoals = true ∧ (requestParts lib text : ℤ) ≥ p.bulkParts := h
  have hne := RoutingPolicy.ne_nil_of_decide hv
  unfold RoutingPolicy.decide at hv
  rw [if_neg hne] at hv
  simp only at hv
  rw [if_pos hbig] at hv
  cases hv
  rfl

instance Verdict.decidableClear (v : Verdict) : Decidable v.Clear :=
  inferInstanceAs (Decidable (_ ∨ _))

/-- A relay with one local model that is asked once. -/
def onceRelay : Relay where
  lib := asciiLib
  provider := planSetup.provider
  limits := planSetup.limits
  policy := demoSetup.policy

def hiCase : TestCase where
  name := "greeting".toList
  expectedRoute := [.small]
  prompt := "hi".toList

def hiRequest : RelayRequest where
  goal := "hi".toList
  sources := Dict.ofList [("conversation".toList, "user: hi".toList)]

theorem chat_hi (relay : Relay) (emit onDelta : Bool) :
    relay.chat (Relay.userMessage hiCase.prompt) emit onDelta =
      .ok (relay.setup hiRequest emit onDelta) := rfl

theorem tunable_onceRelay : onceRelay.policy.Tunable where
  known rule hr := by
    have hr : rule ∈ defaultRules := hr
    simp only [defaultRules, List.mem_cons, List.not_mem_nil, or_false] at hr
    rcases hr with rfl | rfl | rfl | rfl
    · exact .requested
    · exact .empty
    · exact .critic _
    · exact .tokens _ (by decide)
  distinct rule hr rule' hr' hname := by
    have hnames : (defaultRules.map Rule.name).Nodup := by decide
    exact List.inj_on_of_nodup_map hnames hr hr' hname
  requested := .head _
  empty := .tail _ (.head _)
  weights := by constructor <;> norm_num [onceRelay, demoSetup, planSetup]

end HorizonRelay
