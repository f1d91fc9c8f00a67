import HorizonRelay.Lib.Fallible
import HorizonRelay.Lib.Json

/-!
# Tiers, limits and errors

The three model tiers, the limits of a run and the exceptions that pass through it.

## Main definitions

* `Tier`, `availableTiers` — the models, smallest first.
* `Limits` — the bounds on a run, valid by construction.
* `Exc` — an exception object.
-/

namespace HorizonRelay

open Py

/-- The tiers a provider may serve, smallest first. -/
inductive Tier : Type
  /-- `"local"`, the smallest model. -/
  | small
  | mid
  | cloud
  deriving DecidableEq

/-- The tier's name in payloads, records and plans. -/
def Tier.name : Tier → Str
  | .small => "local".toList
  | .mid => "mid".toList
  | .cloud => "cloud".toList

/-- The tier a plan names, if it names one. -/
def Tier.ofName? (s : Str) : Option Tier :=
  [Tier.small, .mid, .cloud].find? fun t => t.name = s

/-- `TIER_ORDER`. -/
def tierOrder : List Tier := [.small, .mid, .cloud]

/-- The tiers a provider's `models` name; a provider without any serves the smallest and
the cloud. -/
def availableTiers (models : List (Str × Str)) : List Tier :=
  if models.isEmpty then [.small, .cloud]
  else tierOrder.filter fun t => (models.lookup t.name).isSome

/-- The tiers that are not the cloud. -/
def localTiers (tiers : List Tier) : List Tier := tiers.filter (· ≠ .cloud)

theorem tierOrder_nodup : tierOrder.Nodup := by decide

theorem availableTiers_sublist (models : List (Str × Str)) :
    (availableTiers models).Sublist tierOrder := by
  unfold availableTiers
  split
  · decide
  · exact List.filter_sublist

theorem availableTiers_nodup (models : List (Str × Str)) : (availableTiers models).Nodup :=
  tierOrder_nodup.sublist (availableTiers_sublist models)

/-- The cloud comes last. -/
theorem availableTiers_pairwise (models : List (Str × Str)) :
    (availableTiers models).Pairwise fun a _ => a ≠ .cloud :=
  (by decide : tierOrder.Pairwise fun a _ => a ≠ .cloud).sublist (availableTiers_sublist models)

theorem localTiers_nodup (models : List (Str × Str)) :
    (localTiers (availableTiers models)).Nodup :=
  (availableTiers_nodup models).filter _

/-! ## Limits -/

/-- The bounds on one run. -/
structure Limits : Type where
  maxTasks : ℕ := 8
  localConcurrency : ℕ := 2
  cloudCalls : ℕ := 5
  cloudWorkerCalls : ℕ := 2
  cloudEnabled : Bool := true
  maxTasks_pos : 1 ≤ maxTasks := by decide
  maxTasks_le : maxTasks ≤ 12 := by decide
  localConcurrency_pos : 1 ≤ localConcurrency := by decide
  localConcurrency_le : localConcurrency ≤ 4 := by decide

/-! ## Errors -/

/-- The classes of exception a run tells apart. -/
inductive ExcClass : Type
  /-- `RelayError` itself. -/
  | relay
  /-- `ValidationError`, a `RelayError`. -/
  | validation
  /-- `BudgetError`, a `RelayError`. -/
  | budget
  /-- `TimeoutError`. -/
  | timeout
  /-- `asyncio.CancelledError`, not an `Exception`. -/
  | cancelled
  /-- Any other `Exception`, by its class name. -/
  | other (name : Str)
  deriving DecidableEq

/-- An exception object. `call` is the model call it came out of, or was raised from. -/
structure Exc : Type where
  cls : ExcClass
  msg : Str := []
  call : Option ℕ := none
  deriving DecidableEq

namespace Exc

/-- `isinstance(exc, RelayError)`. -/
def isRelayError (e : Exc) : Bool :=
  match e.cls with
  | .relay | .validation | .budget => true
  | _ => false

/-- `isinstance(exc, Exception)`. -/
def isException (e : Exc) : Bool := e.cls != .cancelled

end Exc

def relayError (msg : Str) : Exc := { cls := .relay, msg }
def validationError (msg : Str) : Exc := { cls := .validation, msg }
def budgetError (msg : Str) : Exc := { cls := .budget, msg }
def cancelledError : Exc := { cls := .cancelled }
def timeoutError : Exc := { cls := .timeout }

/-- One of Python's own exceptions. -/
def pyError (name : Str) : Exc := { cls := .other name }

/-- An error of a check: it came out of no model call, and is a `ValidationError` or none of
the relay's. -/
def Exc.OfCheck (e : Exc) : Prop :=
  e.call = none ∧ (e.cls = .validation ∨ e.isRelayError = false)

@[simp] theorem ofCheck_validationError (msg : Str) : (validationError msg).OfCheck :=
  ⟨rfl, .inl rfl⟩

@[simp] theorem ofCheck_pyError (name : Str) : (pyError name).OfCheck := ⟨rfl, .inr rfl⟩

/-- A `ValidationError` that came out of no model call. -/
def Refusal (e : Exc) : Prop := ∃ msg, e = validationError msg

@[simp] theorem refusal_validationError (msg : Str) : Refusal (validationError msg) := ⟨msg, rfl⟩

/-- Every error has the property. -/
def Raises {α : Type} (P : Exc → Prop) (r : Except Exc α) : Prop := ∀ e, r = .error e → P e

/-- Every error is an error of a check. -/
def Fresh {α : Type} (r : Except Exc α) : Prop := Raises Exc.OfCheck r

section Raises
variable {α β : Type} {P Q : Exc → Prop}

@[simp] theorem raises_ok (a : α) : Raises P (.ok a : Except Exc α) := by
  intro e h
  cases h

@[simp] theorem raises_error (e : Exc) : Raises P (.error e : Except Exc α) ↔ P e := by
  refine ⟨fun h => h e rfl, ?_⟩
  intro he e' h
  cases h
  exact he

theorem Raises.mono {r : Except Exc α} (hr : Raises P r) (h : ∀ e, P e → Q e) : Raises Q r :=
  fun e he => h e (hr e he)

theorem Raises.bind {r : Except Exc α} {f : α → Except Exc β} (hr : Raises P r)
    (hf : ∀ a, Raises P (f a)) : Raises P (r >>= f) := by
  cases r with
  | ok a => exact hf a
  | error e => exact (raises_error e).mpr (hr e rfl)

theorem Raises.mapM {f : α → Except Exc β} (hf : ∀ a, Raises P (f a)) (as : List α) :
    Raises P (as.mapM f) := by
  induction as with
  | nil => exact raises_ok _
  | cons a as ih =>
      rw [List.mapM_cons]
      exact (hf a).bind fun b => ih.bind fun bs => raises_ok _

theorem Raises.forM {f : α → Except Exc PUnit} (hf : ∀ a, Raises P (f a)) (as : List α) :
    Raises P (as.forM f) := by
  induction as with
  | nil => exact raises_ok _
  | cons a as ih =>
      change Raises P (f a >>= fun _ => as.forM f)
      exact (hf a).bind fun _ => ih

@[simp] theorem fresh_ok (a : α) : Fresh (.ok a : Except Exc α) := raises_ok a

@[simp] theorem fresh_pure (a : α) : Fresh (pure a : Except Exc α) := raises_ok a

@[simp] theorem fresh_error (e : Exc) : Fresh (.error e : Except Exc α) ↔ e.OfCheck :=
  raises_error e

theorem Fresh.bind {r : Except Exc α} {f : α → Except Exc β} (hr : Fresh r)
    (hf : ∀ a, Fresh (f a)) : Fresh (r >>= f) := Raises.bind hr hf

theorem Fresh.mapM {f : α → Except Exc β} (hf : ∀ a, Fresh (f a)) (as : List α) :
    Fresh (as.mapM f) := Raises.mapM hf as

theorem Fresh.map {r : Except Exc α} (hr : Fresh r) (f : α → β) : Fresh (r.map f) := by
  cases r with
  | ok a => exact fresh_ok _
  | error e => exact (fresh_error e).mpr (hr e rfl)

end Raises

end HorizonRelay
