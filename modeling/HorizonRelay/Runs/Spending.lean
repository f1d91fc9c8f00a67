import HorizonRelay.Runs.Bounds

/-!
# What the cloud is charged

The caps hold after any charges, accepted or refused, and planning and work leave the last
call to the answer.  In a run the cloud calls are those that were charged, each before it
was made.

## Main definitions

* `SpendingKept` — the caps and the reserve, for every sequence of charges.
* `Charged` — the cloud calls of a run and its budget agree.

## Main results

* `spending_kept` — both hold.
-/

namespace HorizonRelay

open Py Coop

variable {x : Setup} {permit : Permit} {l : Ledger}

/-! ## Sequences of charges -/

namespace CloudBudget
variable {limits : Limits}

theorem Within.after {b : CloudBudget} (hb : b.Within limits) (ops : List Operation) :
    (b.after limits ops).1.Within limits :=
  (spendAll_eq_ok (spendAll_after limits b ops)).2.2 hb

theorem after_append (b : CloudBudget) (ops ops' : List Operation) :
    (b.after limits (ops ++ ops')).1 = ((b.after limits ops).1.after limits ops').1 := by
  induction ops generalizing b with
  | nil => rfl
  | cons op ops ih =>
      rw [List.cons_append]
      cases h : b.spent limits op with
      | ok b' => rw [after_cons_ok h, after_cons_ok h, ih]
      | error e => rw [after_cons_error h, after_cons_error h, ih]

/-- A call that is not the last one can always be spent on the answer. -/
theorem exists_spent_of_lt {b : CloudBudget} (he : limits.cloudEnabled = true)
    (hb : b.calls < limits.cloudCalls) {op : Operation} (hop : op.final = true) :
    ∃ b', b.spent limits op = .ok b' := by
  cases h : b.spent limits op with
  | ok b' => exact ⟨b', rfl⟩
  | error e =>
      have hrefused := refuses_iff.mp ⟨e, h⟩
      rw [he, hop] at hrefused
      rcases hrefused with h | h | ⟨rfl, -⟩
      · cases h
      · simp at h
        omega
      · cases hop

theorem spendAll_append {b b' : CloudBudget} {ops ops' : List Operation} :
    b.spendAll limits (ops ++ ops') = .ok b' ↔
      ∃ b₁, b.spendAll limits ops = .ok b₁ ∧ b₁.spendAll limits ops' = .ok b' := by
  rw [spendAll, List.foldlM_append]
  exact bind_eq_ok

/-- Charges that leave the answer out leave it its call. -/
theorem calls_lt_of_spendAll {b b' : CloudBudget} {ops : List Operation}
    (hb : b.calls < limits.cloudCalls) (hops : ∀ op ∈ ops, op.final = false)
    (h : b.spendAll limits ops = .ok b') : b'.calls < limits.cloudCalls := by
  induction ops generalizing b with
  | nil =>
      cases h
      exact hb
  | cons op ops ih =>
      rw [List.forall_mem_cons] at hops
      obtain ⟨b₁, hop, h⟩ := bind_eq_ok.mp h
      exact ih ((spent_eq_ok hop).2.2.2.1 hops.1) hops.2 h

end CloudBudget

/-- The counters stay below their caps whatever is charged, a refused charge changes
nothing, and after planning and work the answer can be charged. -/
structure SpendingKept (limits : Limits) : Prop where
  within : ∀ ops, (CloudBudget.after limits {} ops).1.Within limits
  refused : ∀ ops op, (CloudBudget.after limits {} ops).1.Refuses limits op →
    (CloudBudget.after limits {} (ops ++ [op])).1 = (CloudBudget.after limits {} ops).1
  reserved : limits.cloudEnabled = true → 1 ≤ limits.cloudCalls → ∀ ops : List Operation,
    (∀ op ∈ ops, op = .plan ∨ op = .work) → ∀ op, op = .synthesize ∨ op = .answer →
      ∃ b, (CloudBudget.after limits {} ops).1.spent limits op = .ok b

theorem final_of_plan_or_work {op : Operation} (h : op = .plan ∨ op = .work) :
    op.final = false := by
  rcases h with rfl | rfl <;> rfl

theorem final_of_answers {op : Operation} (h : op = .synthesize ∨ op = .answer) :
    op.final = true := by
  rcases h with rfl | rfl <;> rfl

theorem spendingKept (limits : Limits) : SpendingKept limits where
  within ops := (CloudBudget.within_init limits).after ops
  refused ops op h := by
    obtain ⟨e, he⟩ := h
    rw [CloudBudget.after_append, CloudBudget.after_cons_error he]
    rfl
  reserved he hone ops hops op hop := by
    refine CloudBudget.exists_spent_of_lt he ?_ (final_of_answers hop)
    exact CloudBudget.calls_after_lt hone fun op' h => final_of_plan_or_work (hops op' h)

/-! ## The charges of a run -/

/-- The operations of the cloud calls among these, in order. -/
def cloudOpsOf (cs : List Call) : List Operation :=
  cs.filterMap fun c => if c.record.tier = .cloud then some c.payload.operation else none

/-- The cloud calls of a run are those that were charged, and within the caps. -/
structure Charged (x : Setup) (s : Run) : Prop where
  counted : s.budget.calls = s.calls.countP fun c => c.record.tier = .cloud
  within : s.budget.Within x.limits
  metrics : (s.metrics x).localCalls + (s.metrics x).cloudCalls = s.calls.length
  /-- A call on the cloud follows a charge for it that was accepted. -/
  paid : ∀ cs c cs', s.calls = cs ++ c :: cs' → c.record.tier = .cloud → ∃ b b',
    CloudBudget.spendAll x.limits {} (cloudOpsOf cs) = .ok b ∧
      b.spent x.limits c.payload.operation = .ok b'
  /-- Until the cloud was asked for the answer it can be. -/
  reserved : x.limits.cloudEnabled = true → 1 ≤ x.limits.cloudCalls →
    (∀ c ∈ s.calls, c.record.tier = .cloud → c.payload.operation.final = false) →
      ∀ op, op = .synthesize ∨ op = .answer → ∃ b, s.budget.spent x.limits op = .ok b

theorem CallsOk.charged_run {s : Run} (h : CallsOk x permit s.toLedger) : Charged x s where
  counted := h.spent
  within := h.within
  metrics := by
    have hspent : s.budget.calls = _ := h.spent
    have hsplit := List.length_eq_countP_add_countP (l := s.calls)
      (fun c : Call => c.record.tier = .cloud)
    show s.calls.countP (fun c => c.record.tier ≠ .cloud) + s.budget.calls = s.calls.length
    rw [hspent, hsplit, Nat.add_comm]
    simp
  paid cs c cs' hcs hc := by
    have hcharged : CloudBudget.spendAll x.limits {} (cloudOpsOf s.calls) = .ok s.budget :=
      h.charged
    have hops : cloudOpsOf (cs ++ c :: cs') =
        cloudOpsOf cs ++ c.payload.operation :: cloudOpsOf cs' := by
      simp [cloudOpsOf, hc]
    rw [hcs, hops, CloudBudget.spendAll_append] at hcharged
    obtain ⟨b, hb, hrest⟩ := hcharged
    obtain ⟨b', hb', -⟩ := bind_eq_ok.mp hrest
    exact ⟨b, b', hb, hb'⟩
  reserved he hone hcalls op hop := by
    refine CloudBudget.exists_spent_of_lt he ?_ (final_of_answers hop)
    refine CloudBudget.calls_lt_of_spendAll (b := {}) hone ?_ h.charged
    intro op' hop'
    obtain ⟨c, hc, hsome⟩ := List.mem_filterMap.mp hop'
    split at hsome
    · rename_i hcloud
      rw [← Option.some.inj hsome]
      exact hcalls c hc hcloud
    · cases hsome

/-- **The cloud budget.** The caps and the reserve hold after every sequence of charges; and
in every reachable state of a run the cloud calls are those that were charged. -/
theorem spending_kept : (∀ limits, SpendingKept limits) ∧
    ∀ (x : Setup) (c : State), x.Reachable c → Charged x c.shared :=
  ⟨spendingKept, fun _ _ h => h.ok.calls.charged_run⟩

theorem spending_kept_planRun : ∃ c : State, planSetup.Reachable c ∧
    c.shared.calls.length = 6 ∧ Charged planSetup c.shared := by
  obtain ⟨c, hc, hcalls⟩ := System.exists_reach_of_steps (S := planSetup.system) (s := {}) planRun
    (p := fun c => c.shared.calls.length = 6) (by decide +kernel)
  exact ⟨c, hc, by simpa using hcalls, spending_kept.2 planSetup c hc⟩

end HorizonRelay
