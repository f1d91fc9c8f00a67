import HorizonRelay.Settings
import Mathlib.Tactic.SplitIfs

/-!
# The cloud budget

One call is held back for the final answer: `plan` and `work` stop one call short of
`cloudCalls`, only `answer` and `synthesize` may spend the last one.

## Main definitions

* `Operation` — what a model call is for.
* `CloudBudget`, `CloudBudget.spend` — the counters, and the charge of one cloud call.
* `CloudBudget.spendAll`, `CloudBudget.after` — charges one after the other, all of them
  accepted, or each accepted or refused.
-/

namespace HorizonRelay

open Py

/-- What a model call is for. -/
inductive Operation : Type
  | attempt | solve | critique | answer | plan | work | synthesize
  deriving DecidableEq

def Operation.name : Operation → Str
  | .attempt => "attempt".toList
  | .solve => "solve".toList
  | .critique => "critique".toList
  | .answer => "answer".toList
  | .plan => "plan".toList
  | .work => "work".toList
  | .synthesize => "synthesize".toList

/-- The call that produces the final answer. -/
def Operation.final (op : Operation) : Bool := op = .synthesize || op = .answer

/-- Counts cloud calls for one run. -/
structure CloudBudget : Type where
  calls : ℕ := 0
  workerCalls : ℕ := 0
  deriving DecidableEq

namespace CloudBudget

/-- Charge one cloud call, or refuse it; and the counters afterwards. -/
def spend (limits : Limits) (b : CloudBudget) (operation : Operation) :
    Except Exc Unit × CloudBudget :=
  if !limits.cloudEnabled then
    (.error (budgetError "Cloud is disabled and no local answer was trusted".toList), b)
  else
    let reserve : ℤ := if operation.final then 0 else 1
    if (b.calls : ℤ) ≥ limits.cloudCalls - reserve then
      (.error (budgetError "Cloud call budget exhausted (final synthesis reserved)".toList), b)
    else if operation = .work then
      if b.workerCalls ≥ limits.cloudWorkerCalls then
        (.error (budgetError "Cloud worker budget exhausted".toList), b)
      else (.ok (), { calls := b.calls + 1, workerCalls := b.workerCalls + 1 })
    else (.ok (), { b with calls := b.calls + 1 })

/-- The counters after a charge that is accepted. -/
def spent (limits : Limits) (b : CloudBudget) (operation : Operation) : Except Exc CloudBudget :=
  (b.spend limits operation).1.map fun _ => (b.spend limits operation).2

theorem spent_eq (limits : Limits) (b : CloudBudget) (op : Operation) : b.spent limits op =
    if !limits.cloudEnabled then
      .error (budgetError "Cloud is disabled and no local answer was trusted".toList)
    else if (b.calls : ℤ) ≥ limits.cloudCalls - (if op.final then 0 else 1) then
      .error (budgetError "Cloud call budget exhausted (final synthesis reserved)".toList)
    else if op = .work then
      if b.workerCalls ≥ limits.cloudWorkerCalls then
        .error (budgetError "Cloud worker budget exhausted".toList)
      else .ok { calls := b.calls + 1, workerCalls := b.workerCalls + 1 }
    else .ok { b with calls := b.calls + 1 } := by
  unfold spent CloudBudget.spend
  simp only
  split_ifs <;> rfl

/-- A charge is accepted, or refused and changes nothing. -/
theorem spend_eq (limits : Limits) (b : CloudBudget) (op : Operation) :
    b.spend limits op = (match b.spent limits op with
      | .ok b' => (.ok (), b')
      | .error e => (.error e, b)) := by
  unfold spent CloudBudget.spend
  simp only
  split_ifs <;> rfl

/-- What an accepted charge does. -/
theorem spent_eq_ok {limits : Limits} {b b' : CloudBudget} {op : Operation}
    (h : b.spent limits op = .ok b') :
    limits.cloudEnabled = true ∧ b'.calls = b.calls + 1 ∧ b'.calls ≤ limits.cloudCalls ∧
      (op.final = false → b'.calls < limits.cloudCalls) ∧
      (op = .work → b'.workerCalls = b.workerCalls + 1 ∧
        b'.workerCalls ≤ limits.cloudWorkerCalls) ∧
      (op ≠ .work → b'.workerCalls = b.workerCalls) := by
  rw [spent_eq] at h
  by_cases he : limits.cloudEnabled = true
  · simp only [he, Bool.not_true, Bool.false_eq_true, if_false] at h
    by_cases hc : (b.calls : ℤ) ≥ limits.cloudCalls - (if op.final then 0 else 1)
    · rw [if_pos hc] at h
      cases h
    · rw [if_neg hc] at h
      have hle : b.calls + 1 ≤ limits.cloudCalls := by
        split at hc <;> omega
      have hlt : op.final = false → b.calls + 1 < limits.cloudCalls := by
        intro hf
        rw [hf] at hc
        simp only [Bool.false_eq_true, if_false] at hc
        omega
      by_cases hw : op = .work
      · subst hw
        simp only [if_true] at h
        split at h
        · cases h
        · rename_i hlim
          cases h
          exact ⟨he, rfl, hle, hlt, fun _ => ⟨rfl, by simp only; omega⟩, fun hn => absurd rfl hn⟩
      · rw [if_neg hw] at h
        cases h
        exact ⟨he, rfl, hle, hlt, fun hn => absurd hn hw, fun _ => rfl⟩
  · simp [he] at h

/-- A refused charge is a `BudgetError`. -/
theorem spent_eq_error {limits : Limits} {b : CloudBudget} {op : Operation} {e : Exc}
    (h : b.spent limits op = .error e) : e.cls = .budget ∧ e.call = none := by
  rw [spent_eq] at h
  split_ifs at h <;> cases h <;> exact ⟨rfl, rfl⟩

/-- What the counters never exceed. -/
structure Within (limits : Limits) (b : CloudBudget) : Prop where
  calls : b.calls ≤ limits.cloudCalls
  workerCalls : b.workerCalls ≤ limits.cloudWorkerCalls
  workers : b.workerCalls ≤ b.calls

theorem within_init (limits : Limits) : Within limits {} :=
  ⟨Nat.zero_le _, Nat.zero_le _, le_rfl⟩

theorem Within.of_spent {limits : Limits} {b b' : CloudBudget} {op : Operation}
    (hb : Within limits b) (h : b.spent limits op = .ok b') : Within limits b' := by
  obtain ⟨-, hcalls, hle, -, hwork, hother⟩ := spent_eq_ok h
  have := hb.workers
  by_cases hw : op = .work
  · have := hwork hw
    exact ⟨hle, this.2, by omega⟩
  · have := hother hw
    exact ⟨hle, this ▸ hb.workerCalls, by omega⟩

/-- A budget of which at least as much is spent. -/
structure Grown (b b' : CloudBudget) : Prop where
  calls : b.calls ≤ b'.calls
  workerCalls : b.workerCalls ≤ b'.workerCalls

theorem Grown.refl (b : CloudBudget) : Grown b b := ⟨le_rfl, le_rfl⟩

theorem Grown.trans {a b c : CloudBudget} (h : Grown a b) (h' : Grown b c) : Grown a c :=
  ⟨h.calls.trans h'.calls, h.workerCalls.trans h'.workerCalls⟩

/-- An accepted charge only adds. -/
theorem grown_of_spent {limits : Limits} {b b' : CloudBudget} {op : Operation}
    (h : b.spent limits op = .ok b') : Grown b b' := by
  obtain ⟨-, hcalls, -, -, hwork, hother⟩ := spent_eq_ok h
  refine ⟨by omega, ?_⟩
  by_cases hw : op = .work
  · have := (hwork hw).1
    omega
  · rw [hother hw]

/-- Whether a charge is refused. -/
def Refuses (limits : Limits) (b : CloudBudget) (op : Operation) : Prop :=
  ∃ e, b.spent limits op = .error e

/-- When a charge is refused. -/
theorem refuses_iff {limits : Limits} {b : CloudBudget} {op : Operation} :
    b.Refuses limits op ↔ limits.cloudEnabled = false ∨
      limits.cloudCalls ≤ b.calls + (if op.final then 0 else 1) ∨
      (op = .work ∧ limits.cloudWorkerCalls ≤ b.workerCalls) := by
  unfold Refuses
  rw [spent_eq]
  cases limits.cloudEnabled <;> cases hf : op.final <;> by_cases hw : op = .work <;>
    simp only [hw, Bool.not_false, Bool.not_true, Bool.false_eq_true, if_true, if_false,
      Except.error.injEq, exists_eq', true_or, true_and, false_and, false_or, or_false,
      reduceCtorEq] <;> split_ifs <;> simp <;> omega

/-- What was refused stays refused. -/
theorem Refuses.mono {limits : Limits} {b b' : CloudBudget} {op : Operation}
    (h : b.Refuses limits op) (hb : Grown b b') : b'.Refuses limits op := by
  have := hb.calls
  have := hb.workerCalls
  rw [refuses_iff] at h ⊢
  rcases h with h | h | ⟨hw, h⟩
  · exact .inl h
  · exact .inr (.inl (by omega))
  · exact .inr (.inr ⟨hw, by omega⟩)

/-! ## Sequences of charges -/

/-- Charges that are all accepted. -/
def spendAll (limits : Limits) (b : CloudBudget) (ops : List Operation) :
    Except Exc CloudBudget :=
  ops.foldlM (spent limits) b

/-- What accepted charges do. -/
theorem spendAll_eq_ok {limits : Limits} {b b' : CloudBudget} {ops : List Operation}
    (h : b.spendAll limits ops = .ok b') :
    b'.calls = b.calls + ops.length ∧ b'.workerCalls = b.workerCalls + ops.count .work ∧
      (Within limits b → Within limits b') := by
  induction ops generalizing b with
  | nil =>
      cases h
      exact ⟨rfl, rfl, id⟩
  | cons op ops ih =>
      obtain ⟨b₁, hb₁, h⟩ := bind_eq_ok.mp h
      obtain ⟨hcalls, hwork, hwithin⟩ := ih h
      obtain ⟨-, hcalls₁, -, -, hwork₁, hother₁⟩ := spent_eq_ok hb₁
      refine ⟨by rw [hcalls, hcalls₁, List.length_cons]; omega, ?_,
        fun hb => hwithin (hb.of_spent hb₁)⟩
      rw [hwork, List.count_cons]
      by_cases hw : op = .work
      · rw [(hwork₁ hw).1, hw]
        simp
        omega
      · rw [hother₁ hw]
        simp [hw]

theorem spendAll_concat {limits : Limits} {b b' b'' : CloudBudget} {ops : List Operation}
    {op : Operation} (h : b.spendAll limits ops = .ok b') (hop : b'.spent limits op = .ok b'') :
    b.spendAll limits (ops ++ [op]) = .ok b'' := by
  rw [spendAll, List.foldlM_append]
  exact bind_eq_ok.mpr ⟨b', h, bind_eq_ok.mpr ⟨b'', hop, rfl⟩⟩

/-- Charges of which each is accepted or refused: the counters, and what was accepted. -/
def after (limits : Limits) (b : CloudBudget) : List Operation → CloudBudget × List Operation
  | [] => (b, [])
  | op :: ops =>
      match b.spend limits op with
      | (.ok (), b') => ((after limits b' ops).1, op :: (after limits b' ops).2)
      | (.error _, b') => after limits b' ops

theorem after_cons_ok {limits : Limits} {b b' : CloudBudget} {op : Operation}
    (h : b.spent limits op = .ok b') (ops : List Operation) :
    b.after limits (op :: ops) = ((b'.after limits ops).1, op :: (b'.after limits ops).2) := by
  rw [after, spend_eq, h]

/-- A refused charge leaves the counters as they are. -/
theorem after_cons_error {limits : Limits} {b : CloudBudget} {op : Operation} {e : Exc}
    (h : b.spent limits op = .error e) (ops : List Operation) :
    b.after limits (op :: ops) = b.after limits ops := by
  rw [after, spend_eq, h]

/-- Refused charges change nothing: the counters are those after the accepted ones alone. -/
theorem spendAll_after (limits : Limits) (b : CloudBudget) (ops : List Operation) :
    b.spendAll limits (b.after limits ops).2 = .ok (b.after limits ops).1 := by
  induction ops generalizing b with
  | nil => rfl
  | cons op ops ih =>
      cases hop : b.spent limits op with
      | ok b' =>
          rw [after_cons_ok hop]
          exact bind_eq_ok.mpr ⟨b', hop, ih b'⟩
      | error e =>
          rw [after_cons_error hop]
          exact ih b

/-- Planning and work leave a call for the answer. -/
theorem calls_after_lt {limits : Limits} {b : CloudBudget} {ops : List Operation}
    (hb : b.calls < limits.cloudCalls) (hops : ∀ op ∈ ops, op.final = false) :
    (b.after limits ops).1.calls < limits.cloudCalls := by
  induction ops generalizing b with
  | nil => exact hb
  | cons op ops ih =>
      have ih := fun {b} hb => @ih b hb fun op' h => hops op' (by simp [h])
      cases hop : b.spent limits op with
      | ok b' =>
          rw [after_cons_ok hop]
          exact ih ((spent_eq_ok hop).2.2.2.1 (hops op (by simp)))
      | error e =>
          rw [after_cons_error hop]
          exact ih hb

end CloudBudget

end HorizonRelay
