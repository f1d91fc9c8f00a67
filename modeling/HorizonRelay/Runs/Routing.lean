import HorizonRelay.Runs.Tasks

/-!
# The routing cascade

Which model's answer a run returns, for every policy and every behaviour of the provider:
the local models are judged smallest first, and each hands over only by an escalating
verdict.

## Main definitions

* `Routed` — how the result of a run came about.
* `Critiqued` — who criticises.

## Main results

* `cascade_routed` — both, for every reachable state.
-/

namespace HorizonRelay

open Py Coop

variable {x : Setup} {permit : Permit} {l : Ledger}

/-- How a result came about that is no accepted extraction. -/
structure Routed (x : Setup) (l : Ledger) (r : RunResult) : Prop where
  /-- The tiers skipped and judged come first among the local ones, smallest first. -/
  judged : ∃ m, r.metrics.skipped ++ r.metrics.verdicts.map Verdict.tier = x.locals.take m
  escalates : ∀ v ∈ r.metrics.verdicts.dropLast, v.escalate = true
  routed : r.metrics.route.isSome
  /-- A local answer is that of the last verdict, labelled if the provider is simulated. -/
  trusted : ∀ t, r.metrics.route = some t → t ≠ .cloud → ∃ v,
    r.metrics.verdicts.getLast? = some v ∧ v.tier = t ∧ v.escalate = false ∧
      r.content = x.label v.answer
  free : ∀ t, r.metrics.route = some t → t ≠ .cloud → ∀ c ∈ l.calls, c.record.tier ≠ .cloud
  cloud : r.metrics.route = some .cloud → ∀ t ∈ x.locals,
    t ∈ r.metrics.skipped ∨ ∃ v ∈ r.metrics.verdicts, v.tier = t ∧ v.escalate = true

/-- A local answer is criticised by its own tier or the next larger local one. -/
def Critiqued (x : Setup) (l : Ledger) : Prop :=
  ∀ c ∈ l.calls, ∀ task answer n t, c.payload = .critique task answer n t →
    c.record.tier ≠ .cloud ∧
      (c.record.tier = t ∨ x.locals[x.locals.idxOf t + 1]? = some c.record.tier)

/-- The calls for a local tier are in the part of the schedule that belongs to it. -/
theorem mem_locals_of_judge {t : Tier} {n : ℕ} (h : Slot.judge t n ∈ x.schedule) :
    t ∈ x.locals := by
  simp only [Setup.schedule, Setup.localSlots, Setup.cloudSlots, List.mem_append,
    List.mem_flatMap, List.mem_cons, List.mem_map, reduceCtorEq, List.not_mem_nil,
    and_false, exists_false, or_false, List.cons_append] at h
  rcases h with h | ⟨t', ht', h⟩
  · split at h <;> simp at h
  · obtain ⟨_, -, heq⟩ := List.mem_map.mp h
    cases heq
    exact ht'

theorem Ledger.Ok.critiqued (h : l.Ok x permit) : Critiqued x l := by
  intro c hc task answer n t hp
  have hmain : c ∈ l.mine .main := h.mem_main hc (by simp [hp, Payload.operation])
  have htier := h.main.tiers c hmain
  have hslot := h.main.schedule.subset (List.mem_map_of_mem hmain)
  rw [hp] at htier
  rw [Call.slot, hp] at hslot
  have hlocal := mem_locals_of_judge hslot
  obtain htier : x.policy.criticTier t x.tiers = c.record.tier := Option.some.inj htier
  rw [← htier]
  refine ⟨?_, RoutingPolicy.criticTier_cases t x.tiers⟩
  simpa using (List.mem_filter.mp (RoutingPolicy.criticTier_mem hlocal)).2

theorem Ledger.Ok.routed (h : l.Ok x permit) {r : RunResult} (hr : l.outcome = some (.ok r))
    (hx : ∀ a, ¬ l.Extracted x a) : Routed x l r := by
  have hans := (h.ended _ hr).answered r rfl
  refine
    { judged := ?_, escalates := ?_, routed := ?_, trusted := fun t ht hne => ?_
      free := fun t ht => h.main.free t (hans.route ▸ ht), cloud := fun hcloud t ht => ?_ }
  · rw [hans.skipped, hans.verdicts]
    exact h.main.judged
  · rw [hans.verdicts]
    exact h.main.escalates
  · rw [hans.route]
    exact hans.routed
  · rw [hans.route] at ht
    rw [hans.verdicts]
    obtain ⟨a, ha⟩ | ⟨v, hv, htier, hkeep⟩ := h.main.trusted t ht hne
    · exact absurd ha (hx a)
    · obtain ⟨a, ha, -⟩ | ⟨v', hv', hcontent⟩ := hans.content t ht hne
      · exact absurd ha (hx a)
      · obtain rfl : v = v' := Option.some.inj (hv.symm.trans hv')
        exact ⟨v, hv, htier, hkeep, hcontent⟩
  · rw [hans.route] at hcloud
    rw [hans.skipped, hans.verdicts]
    obtain ⟨hall, hesc⟩ := h.main.cloud hcloud
    rw [← hall, List.mem_append, List.mem_map] at ht
    rcases ht with ht | ⟨v, hv, rfl⟩
    · exact .inl ht
    · exact .inr ⟨v, hv, rfl, hesc v hv⟩

/-- **The routing cascade.** Every result that is no accepted extraction came about by the
cascade, and no critique is made by the cloud. -/
theorem cascade_routed {c : State} (h : x.Reachable c) :
    (∀ r, c.shared.outcome = some (.ok r) → (∀ a, ¬ c.shared.toLedger.Extracted x a) →
      Routed x c.shared.toLedger r) ∧ Critiqued x c.shared.toLedger :=
  ⟨fun _ hr hx => h.ok.routed hr hx, h.ok.critiqued⟩

/-! ## A run to look at -/

/-- A simulated provider with one local model. -/
def demoSetup : Setup :=
  { planSetup with
    provider := { simulated := true }
    policy := { planSetup.policy with cloudMode := .auto } }

/-- The local model is sure of its answer and its critic finds nothing. -/
def demoRun : List (Label Thread Choice Move) :=
  [.resume .main .go,
    .resume .main (replyWith (.obj [("answer".toList, .str "4".toList),
      ("confidence".toList, .int 1)])),
    .resume .main (replyWith (.obj [("passed".toList, .bool true), ("severity".toList, .int 0)]))]

theorem not_extracted (h : l.calls.all (fun c => c.payload.operation ≠ .attempt) = true)
    (a : Str) : ¬ l.Extracted x a := by
  rintro ⟨c, v, hc, hp, -, -⟩
  have := List.all_eq_true.mp h c (List.mem_filter.mp hc).1
  rw [hp] at this
  simp [Payload.operation] at this

theorem cascade_routed_demoRun : ∃ (c : State) (r : RunResult),
    c.shared.outcome = some (.ok r) ∧ r.metrics.route = some .small ∧
      Routed demoSetup c.shared.toLedger r ∧ Critiqued demoSetup c.shared.toLedger := by
  obtain ⟨c, hc, h⟩ := System.exists_reach_of_steps (S := demoSetup.system) (s := {}) demoRun
    (p := fun c => c.shared.calls.all (fun d => d.payload.operation ≠ .attempt) &&
      c.shared.toLedger.returned fun r => r.metrics.route = some .small)
    (by decide +kernel)
  obtain ⟨hcalls, h⟩ := Bool.and_eq_true _ _ ▸ h
  obtain ⟨r, hr, hroute⟩ := Ledger.exists_of_returned h
  have hrouted := cascade_routed hc
  exact ⟨c, r, hr, by simpa using hroute, hrouted.1 r hr (not_extracted hcalls), hrouted.2⟩

/-- The returned content is not the first sample's answer itself: a simulated answer is
labelled as such. -/
theorem content_labelled_demoRun : ∃ (c : State) (r : RunResult), demoSetup.Reachable c ∧
    c.shared.outcome = some (.ok r) ∧ (∀ a, ¬ c.shared.toLedger.Extracted demoSetup a) ∧
      r.metrics.route = some .small ∧
      ∀ v, r.metrics.verdicts.getLast? = some v → r.content ≠ v.answer := by
  obtain ⟨c, hc, h⟩ := System.exists_reach_of_steps (S := demoSetup.system) (s := {}) demoRun
    (p := fun c => c.shared.calls.all (fun d => d.payload.operation ≠ .attempt) &&
      c.shared.toLedger.returned fun r => r.metrics.route = some .small &&
        r.metrics.verdicts.getLast?.all fun v => r.content ≠ v.answer)
    (by decide +kernel)
  obtain ⟨hcalls, h⟩ := Bool.and_eq_true _ _ ▸ h
  obtain ⟨r, hr, h⟩ := Ledger.exists_of_returned h
  simp only [Bool.and_eq_true, decide_eq_true_eq] at h
  refine ⟨c, r, hc, hr, not_extracted hcalls, h.1, fun v hv => ?_⟩
  simpa [hv] using h.2

end HorizonRelay
