import HorizonRelay.Lib.Scheduler

/-!
# Turns of coroutines

A turn of a thread is all it does from being resumed to its next suspension.  Nobody else
sees the states in between, so a fact about turns relates the state a turn begins in to the
one it ends in, and what is broken on the way may be mended before the end.

`Coro.turn` is a weakest precondition that remembers where the current turn began, and
`TurnRules.turned` turns it into a fact about every step of a system.

## Main definitions

* `TurnTerms`, `Coro.turn` — what the turns of a thread do, and the weakest precondition.
* `System.Turned`, `System.TurnRules` — a step of a thread, and what is to be shown.
-/

namespace Coop

/-- What the turns of a thread do, and what holds while it is suspended. -/
structure TurnTerms (E σ : Type) where
  /-- Relates the beginning of a turn to its end. -/
  did : σ → σ → Prop
  /-- What holds of the state whenever the thread is suspended at a request. -/
  waits : E → σ → Prop

namespace Coro

variable {E : Type} {A : E → Type} {σ ε α β : Type} (T : TurnTerms E σ)

/-- In a turn that began in `s₀` and is at `s` now, the coroutine keeps to `T`, and ends, if it
ends, as `Q` says. -/
def turn : Coro E A σ ε α → (Except ε α → σ → σ → Prop) → σ → σ → Prop
  | ret a, Q, s₀, s => Q (.ok a) s₀ s
  | raise e, Q, s₀, s => Q (.error e) s₀ s
  | get k, Q, s₀, s => (k s).turn Q s₀ s
  | put s' k, Q, s₀, _ => k.turn Q s₀ s'
  | await op k, Q, s₀, s => T.did s₀ s ∧ T.waits op s ∧
      ∀ r s₁, T.waits op s₁ → (k r).turn Q s₁ s₁

/-- A postcondition given by its two cases. -/
def either (ok : α → σ → σ → Prop) (error : ε → σ → σ → Prop) : Except ε α → σ → σ → Prop
  | .ok a => ok a
  | .error e => error e

@[simp] theorem either_ok (ok : α → σ → σ → Prop) (error : ε → σ → σ → Prop) (a : α) :
    either ok error (.ok a) = ok a := rfl
@[simp] theorem either_error (ok : α → σ → σ → Prop) (error : ε → σ → σ → Prop) (e : ε) :
    either ok error (.error e) = error e := rfl

variable {T} {Q Q' : Except ε α → σ → σ → Prop} {s₀ s : σ}

theorem turn.mono {c : Coro E A σ ε α} (h : c.turn T Q s₀ s)
    (hQ : ∀ r s₀ s, Q r s₀ s → Q' r s₀ s) : c.turn T Q' s₀ s := by
  induction c generalizing s₀ s with
  | ret a => exact hQ _ _ _ h
  | raise e => exact hQ _ _ _ h
  | get k ih => exact ih s h
  | put s' k ih => exact ih h
  | await op k ih => exact ⟨h.1, h.2.1, fun r s₁ hw => ih r (h.2.2 r s₁ hw)⟩

@[simp] theorem turn_pure (a : α) : (pure a : Coro E A σ ε α).turn T Q s₀ s ↔ Q (.ok a) s₀ s :=
  Iff.rfl

@[simp] theorem turn_raise (e : ε) :
    (raise e : Coro E A σ ε α).turn T Q s₀ s ↔ Q (.error e) s₀ s := Iff.rfl

@[simp] theorem turn_read {Q : Except ε σ → σ → σ → Prop} :
    (read : Coro E A σ ε σ).turn T Q s₀ s ↔ Q (.ok s) s₀ s := Iff.rfl

@[simp] theorem turn_update (f : σ → σ) {Q : Except ε Unit → σ → σ → Prop} :
    (update f : Coro E A σ ε Unit).turn T Q s₀ s ↔ Q (.ok ()) s₀ (f s) := Iff.rfl

@[simp] theorem turn_ofExcept (r : Except ε α) :
    (ofExcept r : Coro E A σ ε α).turn T Q s₀ s ↔ Q r s₀ s := by
  cases r <;> rfl

theorem turn_request (op : E) {Q : Except ε (A op) → σ → σ → Prop} :
    (request op : Coro E A σ ε (A op)).turn T Q s₀ s ↔
      T.did s₀ s ∧ T.waits op s ∧ ∀ r s₁, T.waits op s₁ → Q r s₁ s₁ := by
  simp only [request, turn, turn_ofExcept]

/-- Sequencing within a turn and across turns. -/
theorem turn_bind (x : Coro E A σ ε α) (f : α → Coro E A σ ε β)
    {Q : Except ε β → σ → σ → Prop} :
    (x >>= f).turn T Q s₀ s ↔
      x.turn T (either (fun a => (f a).turn T Q) fun e => Q (.error e)) s₀ s := by
  change (x.bind f).turn T Q s₀ s ↔ _
  induction x generalizing s₀ s with
  | ret a => rfl
  | raise e => rfl
  | get k ih => exact ih s
  | put s' k ih => exact ih
  | await op k ih =>
      refine and_congr_right fun _ => and_congr_right fun _ => forall_congr' fun r =>
        forall_congr' fun s₁ => forall_congr' fun _ => ih r

theorem turn_attempt (x : Coro E A σ ε α) {Q : Except ε (Except ε α) → σ → σ → Prop} :
    x.attempt.turn T Q s₀ s ↔ x.turn T (fun r s₀ s => Q (.ok r) s₀ s) s₀ s := by
  induction x generalizing s₀ s with
  | ret a => rfl
  | raise e => rfl
  | get k ih => exact ih s
  | put s' k ih => exact ih
  | await op k ih =>
      refine and_congr_right fun _ => and_congr_right fun _ => forall_congr' fun r =>
        forall_congr' fun s₁ => forall_congr' fun _ => ih r

theorem turn_tryExcept (x : Coro E A σ ε α) (h : ε → Coro E A σ ε α) :
    (x.tryExcept h).turn T Q s₀ s ↔
      x.turn T (either (fun a => Q (.ok a)) fun e => (h e).turn T Q) s₀ s := by
  change (x.attempt >>= _).turn T Q s₀ s ↔ _
  rw [turn_bind, turn_attempt]
  constructor <;> refine fun hx => hx.mono ?_ <;> rintro (e | a) s₀ s h <;> exact h

theorem turn_tryFinally (x : Coro E A σ ε α) (f : Coro E A σ ε Unit) :
    (x.tryFinally f).turn T Q s₀ s ↔
      x.turn T (fun r => f.turn T (either (fun _ => Q r) fun e => Q (.error e))) s₀ s := by
  change (x.attempt >>= fun r => f >>= fun _ => ofExcept r).turn T Q s₀ s ↔ _
  simp only [turn_bind, turn_attempt, either_ok]
  constructor
  · refine fun hx => hx.mono fun r s₀ s h => h.mono ?_
    rintro (e | a) s₀ s h
    · exact h
    · exact (turn_ofExcept r).mp h
  · refine fun hx => hx.mono fun r s₀ s h => h.mono ?_
    rintro (e | a) s₀ s h
    · exact h
    · exact (turn_ofExcept r).mpr h

/-- What is left when a turn is over keeps the terms of the next one. -/
theorem turn.advance {c : Coro E A σ ε α} (h : c.turn T Q s₀ s) :
    (c.advance s).1.turn T Q s₀ (c.advance s).2 := by
  induction c generalizing s with
  | get k ih => exact ih s h
  | put s' k ih => exact ih h
  | ret a => exact h
  | raise e => exact h
  | await op k => exact h

/-! ## Code whose every turn keeps the terms -/

/-- From any point of a turn that kept to the terms so far, the coroutine keeps to them. -/
def Keeps (T : TurnTerms E σ) (c : Coro E A σ ε α) : Prop :=
  ∀ s₀ s, T.did s₀ s → c.turn T (fun _ => T.did) s₀ s

theorem Keeps.pure (a : α) : Keeps T (Pure.pure a : Coro E A σ ε α) := fun _ _ h => h

theorem Keeps.raise (e : ε) : Keeps T (Coro.raise e : Coro E A σ ε α) := fun _ _ h => h

theorem Keeps.ofExcept (r : Except ε α) : Keeps T (Coro.ofExcept r : Coro E A σ ε α) :=
  fun _ _ h => turn_ofExcept r |>.mpr h

theorem Keeps.read : Keeps T (Coro.read : Coro E A σ ε σ) := fun _ _ h => h

theorem Keeps.bind {x : Coro E A σ ε α} {f : α → Coro E A σ ε β} (hx : Keeps T x)
    (hf : ∀ a, Keeps T (f a)) : Keeps T (x >>= f) := by
  intro s₀ s h
  rw [turn_bind]
  refine (hx s₀ s h).mono ?_
  rintro (e | a) s₀ s h
  · exact h
  · exact hf a s₀ s h

theorem Keeps.attempt {x : Coro E A σ ε α} (hx : Keeps T x) : Keeps T x.attempt :=
  fun s₀ s h => turn_attempt x |>.mpr (hx s₀ s h)

theorem Keeps.tryExcept {x : Coro E A σ ε α} {f : ε → Coro E A σ ε α} (hx : Keeps T x)
    (hf : ∀ e, Keeps T (f e)) : Keeps T (x.tryExcept f) := by
  refine hx.attempt.bind ?_
  rintro (e | a)
  · exact hf e
  · exact Keeps.pure a

theorem Keeps.tryFinally {x : Coro E A σ ε α} {f : Coro E A σ ε Unit} (hx : Keeps T x)
    (hf : Keeps T f) : Keeps T (x.tryFinally f) :=
  hx.attempt.bind fun r => hf.bind fun _ => Keeps.ofExcept r

theorem Keeps.update {f : σ → σ} (hf : ∀ s₀ s, T.did s₀ s → T.did s₀ (f s)) :
    Keeps T (Coro.update f : Coro E A σ ε Unit) := hf

/-- Suspending where nothing has to hold. -/
theorem Keeps.request {op : E} (hop : ∀ s, T.waits op s) (hrefl : ∀ s, T.did s s) :
    Keeps T (Coro.request op : Coro E A σ ε (A op)) :=
  fun _ s h => (turn_request op).mpr ⟨h, hop s, fun _ s₁ _ => hrefl s₁⟩

theorem Keeps.ite {p : Prop} [Decidable p] {c d : Coro E A σ ε α} (hc : Keeps T c)
    (hd : Keeps T d) : Keeps T (if p then c else d) := by
  split
  · exact hc
  · exact hd

end Coro

/-! ## Systems -/

namespace System

variable {ι E : Type} {A : E → Type} {σ ε ρ M V : Type} [DecidableEq ι]

/-- A step of thread `j`: its request is answered, it has its turn, and it may end. -/
def Turned (S : System ι E A σ ε ρ M V) (T : ι → TurnTerms E σ) (j : ι) (a b : σ) : Prop :=
  ∃ op m r s₁ s', S.answer j op a m = some (r, s₁) ∧ (T j).did s₁ s' ∧
    (b = s' ∨ ∃ r', b = S.finish j r' s')

/-- What is to be shown of a system for a fact about its turns. -/
structure TurnRules (S : System ι E A σ ε ρ M V) (T : ι → TurnTerms E σ) : Prop where
  refl : ∀ i s, (T i).did s s
  /-- Every thread begins suspended where nothing has to hold. -/
  start : ∀ i, ∃ op, (∀ s, (T i).waits op s) ∧ ∃ k, S.start i = .await op k ∧
    ∀ r, (k r).Keeps (T i)
  answer : ∀ i op s m r s₁, S.answer i op s m = some (r, s₁) → (T i).waits op s →
    (T i).waits op s₁
  others : ∀ i j a b op, i ≠ j → S.Turned T j a b → (T i).waits op a → (T i).waits op b
  moves : ∀ i v a b op, S.move v a = some b → (T i).waits op a → (T i).waits op b

variable {S : System ι E A σ ε ρ M V} {T : ι → TurnTerms E σ} {s : σ}
  {ok : Config ι E A σ ε ρ → Label ι M V → Prop} {c c' : Config ι E A σ ε ρ}

/-- A suspended thread and the terms it is under. -/
def InTurn (T : TurnTerms E σ) (s : σ) : Coro E A σ ε ρ → Prop
  | .await op k => T.waits op s ∧ ∀ r s₁, T.waits op s₁ → (k r).turn T (fun _ => T.did) s₁ s₁
  | _ => True

/-- One step of a thread under the rules. -/
theorem TurnRules.resume (H : S.TurnRules T) {j : ι} {m : M} (hj : InTurn (T j) c.shared (c.pool j))
    (hs : S.step c (.resume j m) = some c') :
    S.Turned T j c.shared c'.shared ∧ InTurn (T j) c'.shared (c'.pool j) := by
  obtain ⟨op, k, r, s₁, hp, ha, rfl⟩ := System.step_resume hs
  rw [hp] at hj
  have hturn := (hj.2 r s₁ (H.answer j op _ m r s₁ ha hj.1)).advance
  have hset := Coro.advance_settled (k r) s₁
  revert hturn hset
  generalize (k r).advance s₁ = n
  obtain ⟨n, s'⟩ := n
  intro hturn hset
  have hdone : ∀ b, (T j).did s₁ s' → (b = s' ∨ ∃ r', b = S.finish j r' s') →
      S.Turned T j c.shared b := fun b hd hb => ⟨op, m, r, s₁, s', ha, hd, hb⟩
  cases n with
  | get k => cases hset
  | put s k => cases hset
  | await op k =>
      refine ⟨hdone _ hturn.1 (.inl rfl), ?_⟩
      simpa [settle, InTurn] using hturn.2
  | raise e =>
      refine ⟨hdone _ hturn (.inr ⟨_, rfl⟩), ?_⟩
      simp [settle, InTurn]
  | ret a =>
      simp only [settle]
      split
      · refine ⟨hdone _ hturn (.inl rfl), ?_⟩
        obtain ⟨op, hw, k, hk, hkeeps⟩ := H.start j
        simp only [Function.update_self, hk]
        exact ⟨hw _, fun r s₁ _ => hkeeps r s₁ s₁ (H.refl j s₁)⟩
      · refine ⟨hdone _ hturn (.inr ⟨_, rfl⟩), ?_⟩
        simp [InTurn]

/-- Every suspended thread is under its terms, in every reachable configuration. -/
theorem TurnRules.inTurn (H : S.TurnRules T) (hc : S.Reach s ok c) :
    ∀ i, InTurn (T i) c.shared (c.pool i) := by
  induction hc with
  | init =>
      intro i
      obtain ⟨op, hw, k, hk, hkeeps⟩ := H.start i
      simp only [init, hk]
      exact ⟨hw _, fun r s₁ _ => hkeeps r s₁ s₁ (H.refl i s₁)⟩
  | @step c c' l _ _ hs ih =>
      intro i
      have hstable : c'.pool i = c.pool i →
          (∀ op, (T i).waits op c.shared → (T i).waits op c'.shared) →
          InTurn (T i) c'.shared (c'.pool i) := by
        intro hpool hw
        have hi := ih i
        rw [hpool]
        revert hi
        cases c.pool i with
        | await op k => exact fun hi => ⟨hw op hi.1, hi.2⟩
        | ret a => exact id
        | raise e => exact id
        | get k => exact id
        | put s k => exact id
      cases l with
      | move v =>
          obtain ⟨s', hmove, rfl⟩ := System.step_move hs
          exact hstable rfl fun op => H.moves i v _ _ op hmove
      | resume j m =>
          obtain ⟨hturned, hj⟩ := H.resume (ih j) hs
          by_cases hij : i = j
          · subst hij
            exact hj
          · refine hstable ?_ fun op => H.others i j _ _ op hij hturned
            exact Contract.pool_of_ne (fun m' h => hij (by injection h with h; exact h.symm)) hs

/-- **Soundness**: every step of a thread of a reachable configuration is a turn that did what
the thread's turns do. -/
theorem TurnRules.turned (H : S.TurnRules T) (hc : S.Reach s ok c) {j : ι} {m : M}
    (hs : S.step c (.resume j m) = some c') : S.Turned T j c.shared c'.shared :=
  (H.resume (H.inTurn hc j) hs).1

end System

end Coop
