import HorizonRelay.Lib.Scheduler

/-!
# Invariants of every write

Some facts about a shared state hold after every single write to it, whoever made it, so
nothing need be said about turns or about what the threads rely on.  A coroutine upholds such
a fact when everything it stores has it, given that everything it reads has it.

## Main definitions

* `Coro.Upholds` — every write of a coroutine keeps an invariant.
* `Coro.Preserves` — a coroutine that ends leaves an invariant as it found it.
* `System.Upkeep` — so do all threads and the environment of a system.

## Main results

* `System.Upkeep.always` — the invariant holds in every reachable configuration.
-/

namespace Coop

namespace Coro

variable {E : Type} {A : E → Type} {σ ε α β : Type} {I : σ → Prop}

/-- Having read states in which `I` holds, the coroutine stores such states only. -/
def Upholds (I : σ → Prop) : Coro E A σ ε α → Prop
  | ret _ => True
  | raise _ => True
  | get k => ∀ s, I s → (k s).Upholds I
  | put s k => I s ∧ k.Upholds I
  | await _ k => ∀ r, (k r).Upholds I

theorem Upholds.pure (a : α) : Upholds I (Pure.pure a : Coro E A σ ε α) := trivial

theorem Upholds.raise (e : ε) : Upholds I (Coro.raise e : Coro E A σ ε α) := trivial

theorem Upholds.ofExcept (r : Except ε α) : Upholds I (Coro.ofExcept r : Coro E A σ ε α) := by
  cases r <;> trivial

theorem Upholds.request (op : E) : Upholds I (Coro.request op : Coro E A σ ε (A op)) :=
  fun r => .ofExcept r

theorem Upholds.update {f : σ → σ} (hf : ∀ s, I s → I (f s)) :
    Upholds I (Coro.update f : Coro E A σ ε Unit) := fun s h => ⟨hf s h, trivial⟩

theorem Upholds.bind {x : Coro E A σ ε α} {f : α → Coro E A σ ε β} (hx : x.Upholds I)
    (hf : ∀ a, (f a).Upholds I) : (x >>= f).Upholds I := by
  change (x.bind f).Upholds I
  induction x with
  | ret a => exact hf a
  | raise e => trivial
  | get k ih => exact fun s h => ih s (hx s h)
  | put s k ih => exact ⟨hx.1, ih hx.2⟩
  | await op k ih => exact fun r => ih r (hx r)

/-- What was read has the invariant. -/
theorem Upholds.reading {f : σ → Coro E A σ ε β} (hf : ∀ s, I s → (f s).Upholds I) :
    (Coro.read >>= f).Upholds I := hf

theorem Upholds.attempt {x : Coro E A σ ε α} (hx : x.Upholds I) : x.attempt.Upholds I := by
  induction x with
  | ret a => trivial
  | raise e => trivial
  | get k ih => exact fun s h => ih s (hx s h)
  | put s k ih => exact ⟨hx.1, ih hx.2⟩
  | await op k ih => exact fun r => ih r (hx r)

theorem Upholds.tryExcept {x : Coro E A σ ε α} {h : ε → Coro E A σ ε α} (hx : x.Upholds I)
    (hh : ∀ e, (h e).Upholds I) : (x.tryExcept h).Upholds I := by
  refine hx.attempt.bind ?_
  rintro (e | a)
  · exact hh e
  · exact .pure a

theorem Upholds.tryFinally {x : Coro E A σ ε α} {f : Coro E A σ ε Unit} (hx : x.Upholds I)
    (hf : f.Upholds I) : (x.tryFinally f).Upholds I :=
  hx.attempt.bind fun r => hf.bind fun _ => .ofExcept r

theorem Upholds.ite {p : Prop} [Decidable p] {c d : Coro E A σ ε α} (hc : c.Upholds I)
    (hd : d.Upholds I) : (if p then c else d).Upholds I := by
  split
  · exact hc
  · exact hd

/-- Running on keeps the invariant, and leaves a coroutine that upholds it. -/
theorem Upholds.advance {c : Coro E A σ ε α} {s : σ} (hc : c.Upholds I) (h : I s) :
    (c.advance s).1.Upholds I ∧ I (c.advance s).2 := by
  induction c generalizing s with
  | get k ih => exact ih s (hc s h) h
  | put s' k ih => exact ih hc.2 hc.1
  | ret a => exact ⟨hc, h⟩
  | raise e => exact ⟨hc, h⟩
  | await op k => exact ⟨hc, h⟩

/-- Among others who keep an invariant too, code that upholds it keeps its contract. -/
theorem Upholds.wp {T : Terms E A σ ε} {c : Coro E A σ ε α} {s : σ} (hc : c.Upholds I) (hs : I s)
    (guar : ∀ a b, T.guar a b) (inv : ∀ s, I s → T.inv s)
    (rely : ∀ a b, I a → T.rely a b → T.known b → I b)
    (answers : ∀ op s r s', T.answers op s r s' → I s → I s') :
    c.wp T (fun _ s' => I s') s := by
  induction c generalizing s with
  | ret a => exact hs
  | raise e => exact hs
  | get k ih => exact ih s (hc s hs) hs
  | put s' k ih => exact ⟨guar _ _, ih hc.2 hc.1⟩
  | await op k ih =>
      refine ⟨inv s hs, fun s₁ hr hk r s₂ ha => ⟨guar _ _, ih r (hc r) ?_⟩⟩
      exact answers op s₁ r s₂ ha (rely s s₁ hs hr hk)

/-! ## Code that ends as it began -/

/-- Begun where `I` holds, the coroutine keeps to its terms and ends where `I` holds. -/
def Preserves (T : Terms E A σ ε) (I : σ → Prop) (c : Coro E A σ ε α) : Prop :=
  ∀ s, I s → c.wp T (fun _ s' => I s') s

variable {T : Terms E A σ ε}

theorem Preserves.pure (a : α) : Preserves T I (Pure.pure a : Coro E A σ ε α) := fun _ h => h

theorem Preserves.raise (e : ε) : Preserves T I (Coro.raise e : Coro E A σ ε α) := fun _ h => h

theorem Preserves.bind {c : Coro E A σ ε α} {f : α → Coro E A σ ε β} (hc : c.Preserves T I)
    (hf : ∀ a, (f a).Preserves T I) : (c >>= f).Preserves T I := fun s h =>
  (hc s h).bind (fun a s' h' => hf a s' h') fun _ _ h' => h'

theorem Preserves.reading {f : σ → Coro E A σ ε β} (hf : ∀ s, (f s).Preserves T I) :
    (Coro.read >>= f).Preserves T I := fun s h => hf s s h

theorem Preserves.attempt {c : Coro E A σ ε α} (hc : c.Preserves T I) :
    c.attempt.Preserves T I := fun s h => (wp_attempt c _ s).mpr (hc s h)

theorem Preserves.tryExcept {c : Coro E A σ ε α} {h : ε → Coro E A σ ε α}
    (hc : c.Preserves T I) (hh : ∀ e, (h e).Preserves T I) : (c.tryExcept h).Preserves T I := by
  refine hc.attempt.bind ?_
  rintro (e | a)
  · exact hh e
  · exact .pure a

theorem Preserves.ite {p : Prop} [Decidable p] {c d : Coro E A σ ε α} (hc : c.Preserves T I)
    (hd : d.Preserves T I) : (if p then c else d).Preserves T I := by
  split
  · exact hc
  · exact hd

end Coro

namespace System

variable {ι E : Type} {A : E → Type} {σ ε ρ M V : Type} [DecidableEq ι]

/-- Everybody who changes the state keeps the invariant. -/
structure Upkeep (S : System ι E A σ ε ρ M V) (I : σ → Prop) : Prop where
  start : ∀ i, (S.start i).Upholds I
  answer : ∀ i op s m r s', S.answer i op s m = some (r, s') → I s → I s'
  finish : ∀ i r s, I s → I (S.finish i r s)
  move : ∀ v s s', S.move v s = some s' → I s → I s'

variable {S : System ι E A σ ε ρ M V} {I : σ → Prop} {s : σ}
  {ok : Config ι E A σ ε ρ → Label ι M V → Prop} {c : Config ι E A σ ε ρ}

/-- A thread put back into the pool leaves the invariant, and upholds it. -/
theorem Upkeep.settle (H : S.Upkeep I) {pool : ι → Coro E A σ ε ρ} (hpool : ∀ i, (pool i).Upholds I)
    (i : ι) {next : Coro E A σ ε ρ} (hnext : next.Upholds I) (h : I s) :
    I (S.settle pool i next s).shared ∧ ∀ j, ((S.settle pool i next s).pool j).Upholds I := by
  have hput : ∀ {c : Coro E A σ ε ρ}, c.Upholds I →
      ∀ j, (Function.update pool i c j).Upholds I := by
    intro c hc j
    by_cases hj : j = i
    · subst hj
      rwa [Function.update_self]
    · rw [Function.update_of_ne hj]
      exact hpool j
  cases next with
  | ret a =>
      simp only [System.settle]
      split
      · exact ⟨h, hput (H.start i)⟩
      · exact ⟨H.finish i _ s h, hput hnext⟩
  | raise e => exact ⟨H.finish i _ s h, hput hnext⟩
  | get k => exact ⟨h, hput hnext⟩
  | put s' k => exact ⟨h, hput hnext⟩
  | await op k => exact ⟨h, hput hnext⟩

/-- **Soundness**: an invariant everybody keeps holds in every reachable configuration. -/
theorem Upkeep.always (H : S.Upkeep I) (hs : I s) (hc : S.Reach s ok c) :
    I c.shared ∧ ∀ i, (c.pool i).Upholds I := by
  induction hc with
  | init => exact ⟨hs, H.start⟩
  | @step c c' l _ _ hstep ih =>
      cases l with
      | move v =>
          obtain ⟨s', hm, rfl⟩ := System.step_move hstep
          exact ⟨H.move v _ s' hm ih.1, ih.2⟩
      | resume i m =>
          obtain ⟨op, k, r, s₁, hp, ha, rfl⟩ := System.step_resume hstep
          have hk := ih.2 i
          rw [hp] at hk
          obtain ⟨hnext, hI⟩ := (hk r).advance (H.answer i op _ m r s₁ ha ih.1)
          exact H.settle ih.2 i hnext hI

end System

end Coop
