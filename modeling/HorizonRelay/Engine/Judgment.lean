import HorizonRelay.Engine.Loop

/-!
# What the local models' replies come to

The cascade of local models by itself: given how the provider answers each call, the samples a
tier draws, the critique of them and the verdict, and how far the cascade climbs.  Nothing is
said of events, of time or of other tasks.

## Main definitions

* `Setup.reply` — what comes of a call.
* `Setup.judged` — the verdict on a tier.
* `Course`, `Setup.course` — the cascade, and where it ends.
-/

namespace HorizonRelay

open Py Coop

/-- What comes of a call under an answer: its value with the summary of its tokens, or its
error. -/
def repliedWith (lib : StdLib) (op : Operation) : Choice → Except Exc (Json × Option TokenStats)
  | .reply (some r) =>
      if r.model.isEmpty then .error (invalidReply 0)
      else .ok ((openReply op r).1, answerTokenStats lib r.tokens)
  | .reply none => .error (invalidReply 0)
  | .raise e => .error e
  | .timeout => .error timeoutError
  | _ => .error cancelledError

/-- What the cascade of a run went through. -/
structure Course : Type where
  skipped : List Tier := []
  verdicts : List Verdict := []
  deriving DecidableEq

/-- Where a cascade ends: at a local model that is trusted, or in the cloud. -/
def Course.route (c : Course) : Tier :=
  match c.verdicts.getLast? with
  | some v => if v.escalate then .cloud else v.tier
  | none => .cloud

namespace Setup

variable (x : Setup) (f : Tier → Payload → Choice)

/-- What comes of a call when the provider answers as `f` says. -/
def reply (tier : Tier) (p : Payload) : Except Exc (Json × Option TokenStats) :=
  repliedWith x.lib p.operation (f tier p)

/-- The `i`th answer of a local model. -/
def drawn (tier : Tier) (i : ℕ) : Except Exc Assessment :=
  match x.reply f tier (.solve x.text ((25 + 15 * i) / 100) (i + 1) tier) with
  | .ok (value, stats) => readAssessment x.lib value stats
  | .error e => if e.isRelayError then readAssessment x.lib (failedAnswer e) none else .error e

/-- The answers from the `i`th on, `n` at most. -/
def draws (tier : Tier) : ℕ → ℕ → Except Exc (List Assessment)
  | 0, _ => .ok []
  | n + 1, i => do
      let a ← x.drawn f tier i
      if a.needsEscalation then .ok [a]
      else do
        let rest ← draws tier n (i + 1)
        .ok (a :: rest)

/-- The critic's reply to the answers of a tier. -/
def criticised (tier : Tier) (samples : List Assessment) : Except Exc Critique :=
  let critic := x.policy.criticTier tier x.tiers
  match x.reply f critic (.critique x.text ((samples.head?.map Assessment.answer).getD [])
      (samples.length + 1) tier) with
  | .ok (raw, _) => (readCritique x.lib raw).map fun c => { c with tier := some critic }
  | .error e =>
      if e.isRelayError then
        .ok { passed := false, severity := 1
              critique := "The critic call failed: ".toList ++ e.msg
              tier := some critic }
      else .error e

/-- The check of the answers of a tier. -/
def checked (tier : Tier) (samples : List Assessment) : Except Exc Critique :=
  if !x.policy.useCritic then
    .ok { passed := true, severity := 0, critique := "Critic disabled by policy.".toList,
          skipped := true }
  else if samples.any Assessment.needsEscalation then
    .ok { passed := false, severity := 1
          critique := "Critic skipped: the model already asked for a larger model.".toList
          skipped := true }
  else x.criticised f tier samples

/-- The verdict on a local model. -/
def judged (tier : Tier) : Except Exc Verdict := do
  let samples ← x.draws f tier x.policy.localSamples 0
  let critique ← x.checked f tier samples
  x.policy.decide x.lib tier x.text samples critique

/-- Whether the cascade passes over a local model. -/
def passesOver (tier : Tier) : Bool :=
  x.policy.skips tier x.tiers (taskComplexity x.lib x.text)

/-- The cascade over some local models. -/
def course : List Tier → Except Exc Course
  | [] => .ok {}
  | tier :: tiers =>
      if x.passesOver tier then do
        let c ← course tiers
        .ok { c with skipped := tier :: c.skipped }
      else do
        let v ← x.judged f tier
        if v.escalate then do
          let c ← course tiers
          .ok { c with verdicts := v :: c.verdicts }
        else .ok { verdicts := [v] }

variable {x f}

theorem tier_of_judged {tier : Tier} {v : Verdict} (h : x.judged f tier = .ok v) :
    v.tier = tier := by
  unfold judged at h
  obtain ⟨samples, -, h⟩ := bind_eq_ok.mp h
  obtain ⟨critique, -, h⟩ := bind_eq_ok.mp h
  exact (RoutingPolicy.decide_eq_ok h).1

/-- The verdicts and the tiers passed over are those of the cascade by itself. By induction on
the tiers: a verdict that keeps an answer is the last one. -/
theorem course_eq {tiers skipped : List Tier} {verdicts : List Verdict} {m : ℕ}
    (hskip : ∀ t ∈ skipped, x.passesOver t = true)
    (hjudge : ∀ v ∈ verdicts, x.passesOver v.tier = false ∧ x.judged f v.tier = .ok v)
    (htake : skipped ++ verdicts.map Verdict.tier = tiers.take m)
    (hesc : ∀ v ∈ verdicts.dropLast, v.escalate = true)
    (hend : (∃ v, verdicts.getLast? = some v ∧ v.escalate = false) ∨
      (skipped ++ verdicts.map Verdict.tier = tiers ∧ ∀ v ∈ verdicts, v.escalate = true)) :
    x.course f tiers = .ok { skipped, verdicts } := by
  induction tiers generalizing skipped verdicts m with
  | nil =>
      obtain ⟨rfl, hnone⟩ := List.append_eq_nil_iff.mp (htake.trans List.take_nil)
      obtain rfl := List.map_eq_nil_iff.mp hnone
      rfl
  | cons tier tiers ih =>
      cases skipped with
      | cons t skipped =>
          obtain ⟨m, rfl⟩ : ∃ m', m = m' + 1 := by
            cases m with
            | zero => simp at htake
            | succ m => exact ⟨m, rfl⟩
          simp only [List.cons_append, List.take_succ_cons, List.cons.injEq] at htake hend
          obtain ⟨rfl, htake⟩ := htake
          have hrest := ih (fun t ht => hskip t (by simp [ht])) hjudge htake hesc
            (hend.imp_right fun h => ⟨h.1.2, h.2⟩)
          rw [course, if_pos (hskip t (by simp)), hrest]
          rfl
      | nil =>
          cases verdicts with
          | nil => simp at hend
          | cons v verdicts =>
              obtain ⟨m, rfl⟩ : ∃ m', m = m' + 1 := by
                cases m with
                | zero => simp at htake
                | succ m => exact ⟨m, rfl⟩
              simp only [List.nil_append, List.map_cons, List.take_succ_cons,
                List.cons.injEq] at htake hend
              obtain ⟨rfl, htake⟩ := htake
              obtain ⟨hpass, hv⟩ := hjudge v (by simp)
              rw [course, if_neg (by simp [hpass]), hv]
              cases hkeep : v.escalate with
              | false =>
                  have hlast : verdicts = [] := by
                    by_contra hne
                    obtain ⟨w, ws, rfl⟩ := List.exists_cons_of_ne_nil hne
                    have := hesc v (by simp)
                    simp [hkeep] at this
                  simp [hlast, hkeep]
              | true =>
                  have hesc' : ∀ w ∈ verdicts.dropLast, w.escalate = true := by
                    intro w hw
                    cases verdicts with
                    | nil => simp at hw
                    | cons u us => exact hesc w (by simp [hw])
                  have hend' : (∃ w, verdicts.getLast? = some w ∧ w.escalate = false) ∨
                      ([] ++ verdicts.map Verdict.tier = tiers ∧
                        ∀ w ∈ verdicts, w.escalate = true) := by
                    refine hend.imp ?_ fun h => ⟨h.1.2, fun w hw => h.2 w (by simp [hw])⟩
                    rintro ⟨w, hw, hne⟩
                    cases verdicts with
                    | nil =>
                        obtain rfl : v = w := by simpa using hw
                        rw [hkeep] at hne
                        cases hne
                    | cons u us => exact ⟨w, by simpa using hw, hne⟩
                  have hrest : x.course f tiers = .ok { verdicts } :=
                    ih (by simp) (fun w hw => hjudge w (by simp [hw])) htake hesc' hend'
                  simp [hkeep, hrest]

/-- An escalating verdict hands over to what is left of the cascade. -/
theorem route_cons {v : Verdict} {c : Course} (hesc : v.escalate = true) :
    Course.route { c with verdicts := v :: c.verdicts } = c.route := by
  unfold Course.route
  cases c.verdicts with
  | nil => exact if_pos hesc
  | cons w vs => rw [List.getLast?_cons_cons]

/-- **Where a cascade ends**: at the first tier that is not passed over and is trusted. By
induction on the tiers. -/
theorem route_course {keeps : Tier → Bool} {tiers : List Tier} {c : Course}
    (h : x.course f tiers = .ok c) (hk : ∀ v ∈ c.verdicts, keeps v.tier = !v.escalate) :
    c.route = (tiers.find? fun t => !x.passesOver t && keeps t).getD .cloud := by
  induction tiers generalizing c with
  | nil =>
      cases h
      rfl
  | cons tier tiers ih =>
      unfold course at h
      by_cases hpass : x.passesOver tier = true
      · rw [if_pos hpass] at h
        obtain ⟨rest, hrest, h⟩ := bind_eq_ok.mp h
        cases h
        rw [List.find?_cons_of_neg (by simp [hpass])]
        have hroute : rest.route = _ := ih hrest hk
        exact hroute
      · rw [if_neg hpass] at h
        obtain ⟨v, hv, h⟩ := bind_eq_ok.mp h
        have htier := tier_of_judged hv
        have hpass : x.passesOver tier = false := (Bool.not_eq_true _).mp hpass
        cases hesc : v.escalate with
        | true =>
            rw [if_pos hesc] at h
            obtain ⟨rest, hrest, h⟩ := bind_eq_ok.mp h
            cases h
            have hkeep := hk v (by simp)
            rw [htier, hesc] at hkeep
            rw [List.find?_cons_of_neg (by simp [hkeep]), route_cons hesc]
            exact ih hrest fun w hw => hk w (List.mem_cons_of_mem _ hw)
        | false =>
            rw [hesc, if_neg (by simp)] at h
            cases h
            have hkeep := hk v (by simp)
            rw [htier, hesc] at hkeep
            rw [List.find?_cons_of_pos (by simp [hpass, hkeep])]
            simp [Course.route, hesc, htier]

end Setup

end HorizonRelay
