import HorizonRelay.Policy.Monotone
import HorizonRelay.Runs.Asked
import HorizonRelay.Runs.Routing

/-!
# Big goals

A goal that asks for many things is taken away from the local models, and its plan must
spread the bulk over them.  Whether it is planned at all is another predicate over the same
text, with a length in it; and the text is not the goal: the sources are counted too.

## Main definitions

* `TakenForPlanning` — a decision escalates because of what the goal asks for.
* `GoalDelegated` — a goal taken away for planning is planned, and the cloud does not answer it.
* `Setup.SameGoal`, `Setup.GoalAlone` — big goals are treated alike over other sources.

## Main results

* `goalDelegated_iff`, `goalAlone_iff` — when these hold.
-/

namespace HorizonRelay

open Py Coop

/-- The reason of a decision about a big goal. -/
def bigGoalReason (lib : StdLib) (text : Str) : Str :=
  "A goal asking for ".toList ++ Str.ofNat (requestParts lib text) ++
    " things is worth planning and handing out".toList

/-- Some decision about a request escalates because of what it asks for. -/
def TakenForPlanning (lib : StdLib) (p : RoutingPolicy) (text : Str) : Prop :=
  ∃ tier samples critique v, p.decide lib tier text samples critique = .ok v ∧
    v.escalate = true ∧ v.reason = bigGoalReason lib text

/-- A request taken away for planning is planned, and in no run does the cloud answer it by
itself. -/
def GoalDelegated (lib : StdLib) (p : RoutingPolicy) (text : Str) : Prop :=
  TakenForPlanning lib p text → p.plans lib text = true ∧
    ∀ x : Setup, x.lib = lib → x.policy = p → x.text = text → ∀ c, x.Reachable c →
      ∀ d ∈ c.shared.calls, d.payload.operation ≠ .answer

/-- The same request over other sources. -/
def Setup.withSources (x : Setup) (sources : Dict Str Str) : Setup := { x with sources := sources }

/-- A goal is big over both sources or over none: decisions take it away alike, and its plans
are refused alike. -/
def Setup.SameGoal (x : Setup) (sources : Dict Str Str) : Prop :=
  (TakenForPlanning x.lib x.policy x.text ↔
      TakenForPlanning x.lib x.policy (x.withSources sources).text) ∧
    ∀ plan, x.policy.checkPlan x.lib plan x.text =
      x.policy.checkPlan x.lib plan (x.withSources sources).text

/-- Whether a goal is big depends on the goal alone: it is treated alike over any two source
maps it is accepted with. -/
def Setup.GoalAlone (x : Setup) : Prop :=
  ∀ s s', (x.withSources s).requestOk = true → (x.withSources s').requestOk = true →
    (x.withSources s).SameGoal s'

variable {lib : StdLib} {p : RoutingPolicy} {text : Str} {x : Setup} {permit : Permit} {l : Ledger}

theorem reason_of_forced {v : Verdict} {rules : List Rule} {b : Bool} {reason : Str}
    (h : RoutingPolicy.forced v rules = .ok (some (b, reason))) :
    ∃ s, reason = "Rule: ".toList ++ s := by
  induction rules with
  | nil => cases h
  | cons rule rules ih =>
      unfold RoutingPolicy.forced at h
      obtain ⟨f, -, h⟩ := bind_eq_ok.mp h
      cases f with
      | none => exact ih h
      | some b' =>
          obtain ⟨r, hr, h⟩ := bind_eq_ok.mp h
          cases h
          unfold RoutingPolicy.ruleReason at hr
          obtain ⟨s, -, hs⟩ := map_eq_ok.mp hr
          exact ⟨_, by rw [← hs, List.append_assoc]⟩

/-- Whether a request is taken away for planning is a matter of how many things it asks for. -/
theorem takenForPlanning_iff : TakenForPlanning lib p text ↔
    p.escalateBigGoals = true ∧ p.bulkParts ≤ (requestParts lib text : ℤ) := by
  constructor
  · rintro ⟨tier, samples, critique, v, h, -, hreason⟩
    have hne := RoutingPolicy.ne_nil_of_decide h
    unfold RoutingPolicy.decide at h
    rw [if_neg hne] at h
    simp only at h
    by_contra hbig
    rw [if_neg hbig] at h
    obtain ⟨f, hf, h⟩ := bind_eq_ok.mp h
    -- no other reason begins with the same letter
    have hhead : v.reason.head? = some 'A' := by
      rw [hreason]
      rfl
    cases f with
    | none =>
        cases h
        exact absurd hhead (by simp)
    | some f =>
        obtain ⟨s, hs⟩ := reason_of_forced hf
        cases h
        simp only [hs] at hhead
        exact absurd hhead (by simp)
  · intro hbig
    -- one sample will do, and any
    have h : p.decide lib .small text [RoutingPolicy.unsure] ⟨true, 0, [], true, none⟩ =
        .ok { p.shown lib .small text [RoutingPolicy.unsure] ⟨true, 0, [], true, none⟩ with
          escalate := true, reason := bigGoalReason lib text } := by
      unfold RoutingPolicy.decide
      rw [if_neg (by simp)]
      simp only
      rw [if_pos hbig]
      rfl
    exact ⟨_, _, _, _, h, rfl, rfl⟩

/-! ## From what is asked for to what is done -/

/-- The cloud answers by itself only what it does not plan. -/
theorem Ledger.Ok.answered_fits (h : l.Ok x permit) {d : Call} (hd : d ∈ l.calls)
    (hop : d.payload.operation = .answer) : x.policy.plans x.lib x.text = false := by
  have hfits := h.main.fits d (h.mem_main hd (by rw [hop]; simp))
  cases hp : d.payload with
  | answer goal context =>
      rw [hp] at hfits
      exact hfits
  | _ =>
      rw [hp] at hop
      cases hop

/-- **Big goals.** With a policy that plans what is long enough and asks for enough things, a
goal taken away for planning is planned, in every run, exactly when it is long enough or not
big. -/
theorem goalDelegated_iff (hauto : p.cloudMode = .auto) (hbig : p.escalateBigGoals = true)
    (hparts : p.planMinParts ≤ p.bulkParts) : GoalDelegated lib p text ↔
      (requestParts lib text : ℤ) < p.bulkParts ∨ p.planMinChars ≤ (text.length : ℤ) := by
  have hplans : p.plans lib text = true ↔
      p.planMinParts ≤ (requestParts lib text : ℤ) ∧ p.planMinChars ≤ (text.length : ℤ) := by
    unfold RoutingPolicy.plans
    rw [hauto]
    simp only [ge_iff_le, Bool.and_eq_true, decide_eq_true_eq]
  unfold GoalDelegated
  rw [takenForPlanning_iff]
  constructor
  · intro h
    by_cases hlt : (requestParts lib text : ℤ) < p.bulkParts
    · exact .inl hlt
    · exact .inr (hplans.mp (h ⟨hbig, not_lt.mp hlt⟩).1).2
  · rintro hlen ⟨-, hge⟩
    have hlong : p.planMinChars ≤ (text.length : ℤ) :=
      hlen.resolve_left (not_lt.mpr hge)
    have hp := hplans.mpr ⟨hparts.trans hge, hlong⟩
    refine ⟨hp, ?_⟩
    rintro x rfl rfl rfl c hc d hd hop
    have hfalse := hc.ok.answered_fits hd hop
    rw [hp] at hfalse
    cases hfalse

/-- A goal that asks for four things in few words is not planned. -/
theorem goal_undelegated_short : ¬ (demoSetup.policy.cloudMode = .auto →
    demoSetup.policy.escalateBigGoals = true →
    demoSetup.policy.planMinParts ≤ demoSetup.policy.bulkParts →
    ∀ text, GoalDelegated asciiLib demoSetup.policy text) := by
  intro h
  have htext := h rfl rfl (by decide) "list, compare, explain, plan".toList
  have hplans := (htext (takenForPlanning_iff.mpr (by decide +kernel))).1
  exact absurd hplans (by decide +kernel)

/-- A goal that asks for four things in many words. -/
def longGoal : Str :=
  ("list the tiers a request can be sent to, compare what each of them costs, explain which " ++
    "of them answers which kind of question, and plan how to test all of this").toList

theorem goalDelegated_demo : TakenForPlanning asciiLib demoSetup.policy longGoal ∧
    demoSetup.policy.plans asciiLib longGoal = true := by
  have htaken : TakenForPlanning asciiLib demoSetup.policy longGoal :=
    takenForPlanning_iff.mpr (by decide +kernel)
  have hdelegated : GoalDelegated asciiLib demoSetup.policy longGoal :=
    (goalDelegated_iff rfl rfl (by decide)).mpr (.inr (by decide +kernel))
  exact ⟨htaken, (hdelegated htaken).1⟩

/-! ## The same goal over other sources -/

theorem checkPlan_small (plan : Plan) (h : (requestParts lib text : ℤ) < p.bulkParts) :
    p.checkPlan lib plan text = none := by
  unfold RoutingPolicy.checkPlan
  rw [if_pos h]

/-- What is said of a plan for a big goal does not depend on the text. -/
theorem checkPlan_big (plan : Plan) {text' : Str}
    (h : ¬ (requestParts lib text : ℤ) < p.bulkParts)
    (h' : ¬ (requestParts lib text' : ℤ) < p.bulkParts) :
    p.checkPlan lib plan text = p.checkPlan lib plan text' := by
  unfold RoutingPolicy.checkPlan
  rw [if_neg h, if_neg h']

theorem checkPlan_nil (h : ¬ (requestParts lib text : ℤ) < p.bulkParts) :
    p.checkPlan lib ⟨[], []⟩ text = none ↔ p.minParallelLocal ≤ 0 := by
  unfold RoutingPolicy.checkPlan
  rw [if_neg h]
  simp only [List.filter_nil, List.length_nil, Nat.cast_zero, ge_iff_le]
  by_cases hmin : p.minParallelLocal ≤ 0
  · rw [if_pos hmin]
    exact iff_of_true rfl hmin
  · rw [if_neg hmin]
    exact iff_of_false (fun h => nomatch h) hmin

/-- Every plan for a big goal will do when no local task is asked for. -/
theorem checkPlan_of_nonpos (plan : Plan) (h : p.minParallelLocal ≤ 0) :
    p.checkPlan lib plan text = none := by
  unfold RoutingPolicy.checkPlan
  split
  · rfl
  · simp only
    rw [if_pos (h.trans (Int.natCast_nonneg _))]

/-- **Two runs with one goal.** Over other sources a goal is treated alike exactly when what
the two texts ask for reaches the bound of big goals in both or in neither, or nothing
depends on it. -/
theorem sameGoal_iff (x : Setup) (sources : Dict Str Str) : x.SameGoal sources ↔
    (x.policy.bulkParts ≤ (requestParts x.lib x.text : ℤ) ↔
        x.policy.bulkParts ≤ (requestParts x.lib (x.withSources sources).text : ℤ)) ∨
      (x.policy.escalateBigGoals = false ∧ x.policy.minParallelLocal ≤ 0) := by
  unfold Setup.SameGoal
  rw [takenForPlanning_iff, takenForPlanning_iff]
  generalize (x.withSources sources).text = other
  constructor
  · rintro ⟨htaken, hplans⟩
    by_cases hsame : x.policy.bulkParts ≤ (requestParts x.lib x.text : ℤ) ↔
        x.policy.bulkParts ≤ (requestParts x.lib other : ℤ)
    · exact .inl hsame
    · refine .inr ⟨?_, ?_⟩
      · by_contra hesc
        rw [Bool.not_eq_false] at hesc
        simp only [hesc, true_and] at htaken
        exact hsame htaken
      · -- a plan of no tasks is refused over one text and not over the other
        have hnil := hplans ⟨[], []⟩
        by_cases hbig : (requestParts x.lib x.text : ℤ) < x.policy.bulkParts
        · have hbig' : ¬ (requestParts x.lib other : ℤ) < x.policy.bulkParts := fun h =>
            hsame (by
              rw [← not_lt, ← not_lt]
              exact iff_of_false (not_not.mpr hbig) (not_not.mpr h))
          rw [checkPlan_small _ hbig] at hnil
          exact (checkPlan_nil hbig').mp hnil.symm
        · have hbig' : (requestParts x.lib other : ℤ) < x.policy.bulkParts := by
            by_contra h
            exact hsame (by rw [← not_lt, ← not_lt]; exact iff_of_true hbig h)
          rw [checkPlan_small _ hbig'] at hnil
          exact (checkPlan_nil hbig).mp hnil
  · rintro (hsame | ⟨hesc, hmin⟩)
    · refine ⟨and_congr_right fun _ => hsame, fun plan => ?_⟩
      by_cases hbig : (requestParts x.lib x.text : ℤ) < x.policy.bulkParts
      · have hbig' : (requestParts x.lib other : ℤ) < x.policy.bulkParts := by
          rw [← not_le] at hbig ⊢
          exact fun h => hbig (hsame.mpr h)
        rw [checkPlan_small _ hbig, checkPlan_small _ hbig']
      · have hbig' : ¬ (requestParts x.lib other : ℤ) < x.policy.bulkParts := by
          rw [not_lt] at hbig ⊢
          exact hsame.mp hbig
        exact checkPlan_big plan hbig hbig'
    · refine ⟨by simp [hesc], fun plan => ?_⟩
      rw [checkPlan_of_nonpos plan hmin, checkPlan_of_nonpos plan hmin]

/-! ## Source maps that make the difference -/

/-- A conversation that asks for nothing. -/
def quietSources : Dict Str Str := Dict.ofList [("conversation".toList, ['-'])]

/-- A source with a name of question marks. -/
def askingSources (n : ℕ) : Dict Str Str := Dict.ofList [(List.replicate n '?', ['-'])]

theorem requestOk_single (h : x.requestOk = true) (key : Str) :
    (x.withSources (Dict.ofList [(key, ['-'])])).requestOk = true := by
  have hgoal : 1 ≤ x.goal.length ∧ x.goal.length ≤ 8000 := by
    unfold Setup.requestOk at h
    simp only [Bool.and_eq_true, decide_eq_true_eq] at h
    exact h.1.1.1.1
  have hentries : (x.withSources (Dict.ofList [(key, ['-'])])).sources.entries =
      [(key, ['-'])] := rfl
  have hvalues : (x.withSources (Dict.ofList [(key, ['-'])])).sources.values = [['-']] := rfl
  have hmax : 1 ≤ x.limits.maxTasks := x.limits.maxTasks_pos
  unfold Setup.requestOk
  rw [hentries, hvalues]
  simp only [Setup.withSources, hgoal, hmax, List.length_singleton]
  rfl

theorem partsOf_quiet (laws : LowerLaws lib) (goal : Str) :
    partsOf lib (askedTexts goal quietSources) = 1 := by
  have hasked : askedTexts goal quietSources = [['-']] := by
    have hstrip : ¬ Str.strip ['-'] = "user: ".toList ++ goal := by
      intro h
      cases h
    show (if "conversation".toList = "conversation".toList then
      if Str.strip ['-'] = "user: ".toList ++ goal then [goal] else [['-']]
      else [goal, sourceTitle "conversation".toList, ['-']]) = _
    rw [if_pos rfl, if_neg hstrip]
  have hlower : lib.lower ['-'] = ['-'] := laws.ascii _ (by decide +kernel)
  rw [hasked, partsOf_silent (by rw [hlower]; decide +kernel) (by rw [hlower]; decide +kernel)]
  rfl

theorem le_partsOf_asking (laws : LowerLaws lib) (goal : Str) (n : ℕ) :
    n ≤ partsOf lib (askedTexts goal (askingSources n)) + 1 := by
  have hkey : ¬ List.replicate n '?' = "conversation".toList := by
    intro h
    have hmem : 'c' ∈ List.replicate n '?' := by
      rw [h]
      decide
    exact absurd (List.eq_of_mem_replicate hmem) (by decide)
  have hasked : askedTexts goal (askingSources n) =
      [goal, sourceTitle (List.replicate n '?'), ['-']] := if_neg hkey
  have hlower : lib.lower (sourceTitle (List.replicate n '?')) =
      sourceTitle (List.replicate n '?') := by
    rw [laws.ascii]
    · simp only [sourceTitle, List.map_append, List.map_replicate]
      rfl
    · refine List.all_eq_true.mpr fun c hc => ?_
      simp only [sourceTitle, List.mem_append, List.mem_singleton, List.mem_replicate] at hc
      rcases hc with (rfl | ⟨-, rfl⟩) | rfl <;> decide
  have hcount : List.count '?' (sourceTitle (List.replicate n '?')) = n := by
    simp [sourceTitle]
  rw [hasked, partsOf, questionsIn, List.map_cons, List.map_cons, List.sum_cons, List.sum_cons,
    hlower, hcount]
  omega

theorem lower_asciiLib : LowerLaws asciiLib where
  ascii _ _ := rfl
  line s t := by simp [asciiLib]

end HorizonRelay
