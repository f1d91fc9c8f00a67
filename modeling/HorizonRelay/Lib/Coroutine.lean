import Mathlib.Logic.Relation
import Mathlib.Tactic.Common

/-!
# Cooperative coroutines

A coroutine runs alone until it suspends at a request; whoever answers the request
resumes it with a result or with an exception raised at that very point.  Between two
suspensions it reads and writes a shared state, and nobody else runs.

A coroutine is a finite tree, so it has no loop of its own: a task that loops forever is
one turn of its loop, run again by the scheduler (`Lib.Scheduler`).

`Coro.wp` is the weakest precondition of a coroutine among others.  Its `Terms` say what
the coroutine may rely on while it is suspended and what it owes whenever it suspends;
the rules below compute it through sequencing, exceptions and state access, so a proof
about a coroutine follows its code.

## Main definitions

* `Coro` — the trees, a monad with state and exceptions.
* `Coro.attempt`, `Coro.tryFinally` — running a coroutine to its outcome.
* `Coro.advance` — running a coroutine to its next suspension.
* `Terms`, `Coro.wp` — suspension contracts and weakest preconditions.
-/

namespace Coop

/-- A coroutine that suspends at requests `op : E`, answered in `A op`, over the shared
state `σ`, raising exceptions `ε`. -/
inductive Coro (E : Type) (A : E → Type) (σ ε α : Type) : Type
  | ret (a : α)
  | raise (e : ε)
  | get (k : σ → Coro E A σ ε α)
  | put (s : σ) (k : Coro E A σ ε α)
  | await (op : E) (k : Except ε (A op) → Coro E A σ ε α)

namespace Coro

variable {E : Type} {A : E → Type} {σ ε α β : Type}

/-- Run `x`, then `f` on its result; an exception of `x` skips `f`. -/
def bind : Coro E A σ ε α → (α → Coro E A σ ε β) → Coro E A σ ε β
  | ret a, f => f a
  | raise e, _ => raise e
  | get k, f => get fun s => (k s).bind f
  | put s k, f => put s (k.bind f)
  | await op k, f => await op fun r => (k r).bind f

/-- Run `x` and return how it ended. -/
def attempt : Coro E A σ ε α → Coro E A σ ε (Except ε α)
  | ret a => ret (.ok a)
  | raise e => ret (.error e)
  | get k => get fun s => (k s).attempt
  | put s k => put s k.attempt
  | await op k => await op fun r => (k r).attempt

instance : Monad (Coro E A σ ε) where
  pure := ret
  bind := bind

/-- End the way an attempted coroutine ended. -/
def ofExcept : Except ε α → Coro E A σ ε α
  | .ok a => ret a
  | .error e => raise e

/-- `try x except e: h e`. -/
def tryExcept (x : Coro E A σ ε α) (h : ε → Coro E A σ ε α) : Coro E A σ ε α :=
  x.attempt.bind fun
    | .ok a => ret a
    | .error e => h e

/-- `try x finally f`: `f` runs however `x` ended, and an exception of `f` replaces
that outcome. -/
def tryFinally (x : Coro E A σ ε α) (f : Coro E A σ ε Unit) : Coro E A σ ε α :=
  x.attempt.bind fun r => f.bind fun _ => ofExcept r

/-- Suspend at `op` and go on with its answer, or raise what it was answered with. -/
def request (op : E) : Coro E A σ ε (A op) := await op ofExcept

/-- Read the shared state. -/
def read : Coro E A σ ε σ := get ret

/-- Update the shared state. -/
def update (f : σ → σ) : Coro E A σ ε Unit := get fun s => put (f s) (ret ())

/-- Whether the coroutine is at a request or has ended. -/
def Settled : Coro E A σ ε α → Prop
  | get _ | put _ _ => False
  | _ => True

/-- Run to the next request or to the end, touching only the shared state. -/
def advance : Coro E A σ ε α → σ → Coro E A σ ε α × σ
  | get k, s => (k s).advance s
  | put s k, _ => k.advance s
  | c, s => (c, s)

theorem advance_settled (c : Coro E A σ ε α) (s : σ) : (c.advance s).1.Settled := by
  induction c generalizing s with
  | get k ih => exact ih s s
  | put s' k ih => exact ih s'
  | ret a => trivial
  | raise e => trivial
  | await op k => trivial

end Coro

/-- The contract a coroutine runs under. -/
structure Terms (E : Type) (A : E → Type) (σ ε : Type) where
  /-- What the others may do to the state while the coroutine is suspended. -/
  rely : σ → σ → Prop
  /-- What every write of the coroutine, and every answer it gets, keeps to. -/
  guar : σ → σ → Prop
  /-- What must hold whenever the coroutine suspends. -/
  inv : σ → Prop
  /-- What holds whenever the coroutine is resumed. -/
  known : σ → Prop
  /-- The answers a request can get, with the state they leave. -/
  answers : (op : E) → σ → Except ε (A op) → σ → Prop

namespace Coro

variable {E : Type} {A : E → Type} {σ ε α β : Type} (T : Terms E A σ ε)

/-- From state `s` the coroutine keeps to `T`, and ends, if it ends, as `Q` says. -/
def wp : Coro E A σ ε α → (Except ε α → σ → Prop) → σ → Prop
  | ret a, Q, s => Q (.ok a) s
  | raise e, Q, s => Q (.error e) s
  | get k, Q, s => (k s).wp Q s
  | put s' k, Q, s => T.guar s s' ∧ k.wp Q s'
  | await op k, Q, s => T.inv s ∧
      ∀ s₁, T.rely s s₁ → T.known s₁ → ∀ r s₂, T.answers op s₁ r s₂ →
        T.guar s₁ s₂ ∧ (k r).wp Q s₂

/-- A postcondition given by its two cases. -/
def outcome (ok : α → σ → Prop) (error : ε → σ → Prop) : Except ε α → σ → Prop
  | .ok a => ok a
  | .error e => error e

@[simp] theorem outcome_ok (ok : α → σ → Prop) (error : ε → σ → Prop) (a : α) :
    outcome ok error (.ok a) = ok a := rfl
@[simp] theorem outcome_error (ok : α → σ → Prop) (error : ε → σ → Prop) (e : ε) :
    outcome ok error (.error e) = error e := rfl

variable {T}

/-- A weaker postcondition is easier to reach. -/
theorem wp.mono {c : Coro E A σ ε α} {Q Q' : Except ε α → σ → Prop} {s : σ}
    (h : c.wp T Q s) (hQ : ∀ r s', Q r s' → Q' r s') : c.wp T Q' s := by
  induction c generalizing s with
  | ret a => exact hQ _ _ h
  | raise e => exact hQ _ _ h
  | get k ih => exact ih s h
  | put s' k ih => exact ⟨h.1, ih h.2⟩
  | await op k ih =>
      refine ⟨h.1, fun s₁ hr hk r s₂ ha => ?_⟩
      obtain ⟨hg, h⟩ := h.2 s₁ hr hk r s₂ ha
      exact ⟨hg, ih r h⟩

/-! ## The rules -/

@[simp] theorem wp_ret (a : α) (Q : Except ε α → σ → Prop) :
    (ret a : Coro E A σ ε α).wp T Q = Q (.ok a) := rfl

@[simp] theorem wp_pure (a : α) (Q : Except ε α → σ → Prop) :
    (pure a : Coro E A σ ε α).wp T Q = Q (.ok a) := rfl

@[simp] theorem wp_raise (e : ε) (Q : Except ε α → σ → Prop) :
    (raise e : Coro E A σ ε α).wp T Q = Q (.error e) := rfl

@[simp] theorem wp_read (Q : Except ε σ → σ → Prop) (s : σ) :
    (read : Coro E A σ ε σ).wp T Q s ↔ Q (.ok s) s := Iff.rfl

@[simp] theorem wp_update (f : σ → σ) (Q : Except ε Unit → σ → Prop) (s : σ) :
    (update f : Coro E A σ ε Unit).wp T Q s ↔ T.guar s (f s) ∧ Q (.ok ()) (f s) := Iff.rfl

@[simp] theorem wp_ofExcept (r : Except ε α) (Q : Except ε α → σ → Prop) :
    (ofExcept r : Coro E A σ ε α).wp T Q = Q r := by
  cases r <;> rfl

theorem wp_request (op : E) (Q : Except ε (A op) → σ → Prop) (s : σ) :
    (request op : Coro E A σ ε (A op)).wp T Q s ↔ T.inv s ∧
      ∀ s₁, T.rely s s₁ → T.known s₁ → ∀ r s₂, T.answers op s₁ r s₂ →
        T.guar s₁ s₂ ∧ Q r s₂ := by
  simp only [request, wp, wp_ofExcept]

/-- Sequencing: the first coroutine ends so that the second one can run, or raises. -/
theorem wp_bind (x : Coro E A σ ε α) (f : α → Coro E A σ ε β)
    (Q : Except ε β → σ → Prop) (s : σ) :
    (x >>= f).wp T Q s ↔
      x.wp T (outcome (fun a => (f a).wp T Q) fun e => Q (.error e)) s := by
  change (x.bind f).wp T Q s ↔ _
  induction x generalizing s with
  | ret a => rfl
  | raise e => rfl
  | get k ih => exact ih s s
  | put s' k ih => exact and_congr_right fun _ => ih s'
  | await op k ih =>
      refine and_congr_right fun _ => forall_congr' fun s₁ => forall_congr' fun _ =>
        forall_congr' fun _ => forall_congr' fun r => forall_congr' fun s₂ =>
        forall_congr' fun _ => and_congr_right fun _ => ih r s₂

/-- The rule of sequencing, read as a step of a proof. -/
theorem wp.bind {x : Coro E A σ ε α} {f : α → Coro E A σ ε β}
    {Q : Except ε β → σ → Prop} {P : Except ε α → σ → Prop} {s : σ} (hx : x.wp T P s)
    (ok : ∀ a s', P (.ok a) s' → (f a).wp T Q s')
    (error : ∀ e s', P (.error e) s' → Q (.error e) s') : (x >>= f).wp T Q s := by
  rw [wp_bind]
  refine hx.mono ?_
  rintro (e | a) s' h
  · exact error e s' h
  · exact ok a s' h

/-- Attempting a coroutine turns its outcome into a result. -/
@[simp] theorem wp_attempt (x : Coro E A σ ε α) (Q : Except ε (Except ε α) → σ → Prop)
    (s : σ) : x.attempt.wp T Q s ↔ x.wp T (fun r s' => Q (.ok r) s') s := by
  induction x generalizing s with
  | ret a => rfl
  | raise e => rfl
  | get k ih => exact ih s s
  | put s' k ih => exact and_congr_right fun _ => ih s'
  | await op k ih =>
      refine and_congr_right fun _ => forall_congr' fun s₁ => forall_congr' fun _ =>
        forall_congr' fun _ => forall_congr' fun r => forall_congr' fun s₂ =>
        forall_congr' fun _ => and_congr_right fun _ => ih r s₂

theorem wp_tryExcept (x : Coro E A σ ε α) (h : ε → Coro E A σ ε α)
    (Q : Except ε α → σ → Prop) (s : σ) :
    (x.tryExcept h).wp T Q s ↔
      x.wp T (outcome (fun a => Q (.ok a)) fun e => (h e).wp T Q) s := by
  change (x.attempt >>= _).wp T Q s ↔ _
  rw [wp_bind, wp_attempt]
  constructor <;> refine fun hx => hx.mono ?_ <;> rintro (e | a) s' h <;> exact h

theorem wp_tryFinally (x : Coro E A σ ε α) (f : Coro E A σ ε Unit)
    (Q : Except ε α → σ → Prop) (s : σ) :
    (x.tryFinally f).wp T Q s ↔
      x.wp T (fun r => f.wp T (outcome (fun _ => Q r) fun e => Q (.error e))) s := by
  change (x.attempt >>= fun r => f >>= fun _ => ofExcept r).wp T Q s ↔ _
  simp only [wp_bind, wp_attempt, wp_ofExcept, outcome_ok]

/-! ## Suspension -/

/-- A settled coroutine keeps its contract while the others run. -/
theorem wp.stable {c : Coro E A σ ε α} {Q : Except ε α → σ → Prop} {s s' : σ}
    (trans : ∀ {a b c}, T.rely a b → T.rely b c → T.rely a c)
    (h : c.wp T Q s) (hr : T.rely s s') (hi : T.inv s') (hc : ∃ op k, c = await op k) :
    c.wp T Q s' := by
  obtain ⟨op, k, rfl⟩ := hc
  exact ⟨hi, fun s₁ hr₁ hk r s₂ ha => h.2 s₁ (trans hr hr₁) hk r s₂ ha⟩

/-- Running to the next suspension keeps the contract, and every write on the way keeps
to what the coroutine guarantees. -/
theorem wp.advance {c : Coro E A σ ε α} {Q : Except ε α → σ → Prop} {s : σ}
    (h : c.wp T Q s) :
    (c.advance s).1.wp T Q (c.advance s).2 ∧ Relation.ReflTransGen T.guar s (c.advance s).2 := by
  induction c generalizing s with
  | ret a => exact ⟨h, .refl⟩
  | raise e => exact ⟨h, .refl⟩
  | get k ih => exact ih s h
  | put s' k ih => exact ⟨(ih h.2).1, .head h.1 (ih h.2).2⟩
  | await op k => exact ⟨h, .refl⟩

end Coro

end Coop
