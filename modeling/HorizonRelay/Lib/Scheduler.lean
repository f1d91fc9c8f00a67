import HorizonRelay.Lib.Coroutine

/-!
# Threads of coroutines under an arbitrary scheduler

A system runs one coroutine per thread over one shared state.  A step either resumes a
suspended thread with one of the answers its request may get, and runs it to its next
suspension, or lets the environment move the state.  Which step comes next is arbitrary,
so a fact about every reachable configuration holds under every interleaving.

`Contract` is the proof rule: a rely and a guarantee for each thread, an invariant that
holds whenever no thread is running, and a postcondition for the end of each thread.
`Contract.Holds.sound` turns weakest preconditions of the threads' code into facts about
every reachable configuration.

## Main definitions

* `System`, `Config`, `System.step` — threads, their configurations and one step.
* `System.Reach` — the configurations reached by steps a condition admits.
* `Contract`, `Contract.Holds` — the proof rule and its obligations.
-/

namespace Coop

/-- Who moves: a thread resumed in one of the ways `M` its request may be answered, or
the environment making one of its moves `V`. -/
inductive Label (ι M V : Type) : Type
  | resume (i : ι) (m : M)
  | move (v : V)
  deriving DecidableEq

/-- Threads `ι` of coroutines returning `ρ`, scheduled together. -/
structure System (ι E : Type) (A : E → Type) (σ ε ρ M V : Type) where
  /-- The code of each thread, suspended at its first request. -/
  start : ι → Coro E A σ ε ρ
  /-- The answer a request gets under a choice of the environment, if it can. -/
  answer : ι → (op : E) → σ → M → Option (Except ε (A op) × σ)
  /-- What the end of a thread leaves in the state. -/
  finish : ι → Except ε ρ → σ → σ
  /-- Whether a returned thread runs its code again: one more turn of its loop. -/
  again : ι → ρ → Bool
  /-- The environment's own moves. -/
  move : V → σ → Option σ

/-- The shared state and what is left of every thread. -/
structure Config (ι E : Type) (A : E → Type) (σ ε ρ : Type) where
  shared : σ
  pool : ι → Coro E A σ ε ρ

namespace System

variable {ι E : Type} {A : E → Type} {σ ε ρ M V : Type} [DecidableEq ι]

/-- Put a thread that ran to its next suspension, or to its end, back into the pool. -/
def settle (S : System ι E A σ ε ρ M V) (pool : ι → Coro E A σ ε ρ) (i : ι) :
    Coro E A σ ε ρ → σ → Config ι E A σ ε ρ
  | .ret a, s =>
      if S.again i a then ⟨s, Function.update pool i (S.start i)⟩
      else ⟨S.finish i (.ok a) s, Function.update pool i (.ret a)⟩
  | .raise e, s => ⟨S.finish i (.error e) s, Function.update pool i (.raise e)⟩
  | c, s => ⟨s, Function.update pool i c⟩

/-- Resume thread `i` with the answer `m` chooses. -/
def resume (S : System ι E A σ ε ρ M V) (c : Config ι E A σ ε ρ) (i : ι) (m : M) :
    Option (Config ι E A σ ε ρ) :=
  match c.pool i with
  | .await op k =>
      (S.answer i op c.shared m).map fun a =>
        let next := (k a.1).advance a.2
        S.settle c.pool i next.1 next.2
  | _ => none

/-- One step of the system. -/
def step (S : System ι E A σ ε ρ M V) (c : Config ι E A σ ε ρ) :
    Label ι M V → Option (Config ι E A σ ε ρ)
  | .resume i m => S.resume c i m
  | .move v => (S.move v c.shared).map fun s => ⟨s, c.pool⟩

/-- The steps of a list of labels, one after the other. -/
def steps (S : System ι E A σ ε ρ M V) (c : Config ι E A σ ε ρ) :
    List (Label ι M V) → Option (Config ι E A σ ε ρ)
  | [] => some c
  | l :: ls => (S.step c l).bind fun c' => S.steps c' ls

/-- The configuration in which every thread is at its first request. -/
def init (S : System ι E A σ ε ρ M V) (s : σ) : Config ι E A σ ε ρ := ⟨s, S.start⟩

/-- Reached from `s` by steps that `ok` admits. -/
inductive Reach (S : System ι E A σ ε ρ M V) (s : σ)
    (ok : Config ι E A σ ε ρ → Label ι M V → Prop) : Config ι E A σ ε ρ → Prop
  | init : Reach S s ok (S.init s)
  | step {c c' : Config ι E A σ ε ρ} {l : Label ι M V} :
      Reach S s ok c → ok c l → S.step c l = some c' → Reach S s ok c'

/-- Every step is admitted. -/
def anyStep : Config ι E A σ ε ρ → Label ι M V → Prop := fun _ _ => True

variable {S : System ι E A σ ε ρ M V} {s : σ}
  {ok ok' : Config ι E A σ ε ρ → Label ι M V → Prop} {c c' : Config ι E A σ ε ρ}

theorem Reach.mono (h : S.Reach s ok c) (hok : ∀ c l, ok c l → ok' c l) :
    S.Reach s ok' c := by
  induction h with
  | init => exact .init
  | step _ hl hs ih => exact .step ih (hok _ _ hl) hs

theorem Reach.any (h : S.Reach s ok c) : S.Reach s anyStep c :=
  h.mono fun _ _ _ => trivial

/-- A list of labels that runs leads to a reachable configuration. -/
theorem reach_of_steps {ls : List (Label ι M V)} (h : S.Reach s anyStep c)
    (hs : S.steps c ls = some c') : S.Reach s anyStep c' := by
  induction ls generalizing c with
  | nil => cases hs; exact h
  | cons l ls ih =>
      obtain ⟨d, hd, hs⟩ := Option.bind_eq_some_iff.mp hs
      exact ih (.step h trivial hd) hs

/-- A list of labels that runs to a configuration with a property shows that one can be
reached. -/
theorem exists_reach_of_steps (ls : List (Label ι M V)) {p : Config ι E A σ ε ρ → Bool}
    (h : (S.steps (S.init s) ls).any p = true) : ∃ c, S.Reach s anyStep c ∧ p c = true := by
  obtain ⟨c, hc, hp⟩ := Option.any_eq_true _ _ |>.mp h
  exact ⟨c, reach_of_steps .init hc, hp⟩

/-- The steps of a list of labels, as long as each passes a check. -/
def checkedSteps (S : System ι E A σ ε ρ M V)
    (q : Config ι E A σ ε ρ → Label ι M V → Bool) (c : Config ι E A σ ε ρ) :
    List (Label ι M V) → Option (Config ι E A σ ε ρ)
  | [] => some c
  | l :: ls => if q c l then (S.step c l).bind fun c' => S.checkedSteps q c' ls else none

/-- A list of labels that passes a check leads to a configuration reached by steps that the
check admits. -/
theorem reach_of_checkedSteps {q : Config ι E A σ ε ρ → Label ι M V → Bool}
    (hq : ∀ c l, q c l = true → ok c l) {ls : List (Label ι M V)} (h : S.Reach s ok c)
    (hs : S.checkedSteps q c ls = some c') : S.Reach s ok c' := by
  induction ls generalizing c with
  | nil => cases hs; exact h
  | cons l ls ih =>
      unfold checkedSteps at hs
      split at hs
      · rename_i hl
        obtain ⟨d, hd, hs⟩ := Option.bind_eq_some_iff.mp hs
        exact ih (.step h (hq c l hl) hd) hs
      · cases hs

/-- What a step of a thread does: its request is answered and it runs on. -/
theorem step_resume {i : ι} {m : M} (h : S.step c (.resume i m) = some c') :
    ∃ op k r s₁, c.pool i = .await op k ∧ S.answer i op c.shared m = some (r, s₁) ∧
      c' = S.settle c.pool i ((k r).advance s₁).1 ((k r).advance s₁).2 := by
  simp only [step, resume] at h
  split at h
  · rename_i op k hp
    obtain ⟨⟨r, s₁⟩, ha, rfl⟩ := Option.map_eq_some_iff.mp h
    exact ⟨op, k, r, s₁, hp, ha, rfl⟩
  · cases h

/-- What a move of the environment does: it leaves every thread where it is. -/
theorem step_move {v : V} (h : S.step c (.move v) = some c') :
    ∃ s', S.move v c.shared = some s' ∧ c' = ⟨s', c.pool⟩ := by
  obtain ⟨s', hs, rfl⟩ := Option.map_eq_some_iff.mp h
  exact ⟨s', hs, rfl⟩

end System

/-! ## Rely and guarantee -/

/-- A proof outline for the threads of a system. -/
structure Contract (ι E : Type) (A : E → Type) (σ ε ρ M : Type) where
  /-- The threads the outline is about; the steps of the others are accounted for as a
  whole. -/
  covered : ι → Prop
  /-- What the others may do while a thread is suspended. -/
  rely : ι → σ → σ → Prop
  /-- What a thread does. -/
  guar : ι → σ → σ → Prop
  /-- Holds whenever no thread is running. -/
  inv : σ → Prop
  /-- Known to hold in every reachable configuration. -/
  known : σ → Prop
  /-- The answers considered. -/
  allow : ι → (op : E) → σ → M → Prop
  /-- Holds where a thread ends. -/
  post : ι → Except ε ρ → σ → Prop

namespace Contract

variable {ι E : Type} {A : E → Type} {σ ε ρ M V : Type} [DecidableEq ι]

/-- The terms one thread runs under. -/
def terms (C : Contract ι E A σ ε ρ M) (S : System ι E A σ ε ρ M V) (i : ι) :
    Terms E A σ ε where
  rely := C.rely i
  guar := C.guar i
  inv := C.inv
  known s := C.inv s ∧ C.known s
  answers op s r s' := ∃ m, S.answer i op s m = some (r, s') ∧ C.allow i op s m

/-- The obligations of a proof outline. -/
structure Holds (C : Contract ι E A σ ε ρ M) (S : System ι E A σ ε ρ M V) (s₀ : σ)
    (ok : Config ι E A σ ε ρ → Label ι M V → Prop) : Prop where
  rely_refl : ∀ i s, C.rely i s s
  rely_trans : ∀ i {a b c}, C.rely i a b → C.rely i b c → C.rely i a c
  guar_refl : ∀ i s, C.guar i s s
  guar_trans : ∀ i {a b c}, C.guar i a b → C.guar i b c → C.guar i a c
  /-- Every thread begins suspended. -/
  start_await : ∀ i, ∃ op k, S.start i = .await op k
  init_inv : C.inv s₀
  start_wp : ∀ i, C.covered i → (S.start i).wp (C.terms S i) (C.post i) s₀
  known : ∀ c, S.Reach s₀ ok c → C.inv c.shared → C.known c.shared
  allow : ∀ c i m op k, ok c (.resume i m) → c.pool i = .await op k →
    C.allow i op c.shared m
  finish : ∀ i r s, C.covered i → C.post i r s →
    C.inv (S.finish i r s) ∧ C.guar i s (S.finish i r s)
  /-- A thread that loops ends each turn ready for the next one. -/
  again : ∀ i a s, C.covered i → C.post i (.ok a) s → S.again i a = true →
    (S.start i).wp (C.terms S i) (C.post i) s
  /-- The steps of the environment and of the threads left out keep the invariant. -/
  others : ∀ c l c', S.Reach s₀ ok c → ok c l → S.step c l = some c' →
    (∀ i m, l = .resume i m → ¬ C.covered i) → C.inv c.shared → C.inv c'.shared
  /-- What one thread guarantees, every other thread may rely on. -/
  rely_step : ∀ c l c', S.Reach s₀ ok c → ok c l → S.step c l = some c' → C.inv c.shared →
    (∀ i m, l = .resume i m → C.covered i → C.guar i c.shared c'.shared) →
    ∀ j, (∀ m, l ≠ .resume j m) → C.covered j → C.rely j c.shared c'.shared

variable {C : Contract ι E A σ ε ρ M} {S : System ι E A σ ε ρ M V} {s₀ : σ}
  {ok : Config ι E A σ ε ρ → Label ι M V → Prop} {c c' : Config ι E A σ ε ρ}

/-- Every thread still suspended is in the middle of code that keeps its terms. -/
def Live (C : Contract ι E A σ ε ρ M) (S : System ι E A σ ε ρ M V)
    (c : Config ι E A σ ε ρ) : Prop :=
  ∀ i, C.covered i → (∃ op k, c.pool i = .await op k) →
    (c.pool i).wp (C.terms S i) (C.post i) c.shared

/-- A chain of guaranteed writes is guaranteed. -/
theorem Holds.guar_chain (H : C.Holds S s₀ ok) {i : ι} {a b : σ}
    (h : Relation.ReflTransGen (C.guar i) a b) : C.guar i a b := by
  induction h with
  | refl => exact H.guar_refl i a
  | tail _ hb ih => exact H.guar_trans i ih hb

/-- One thread's step: the invariant holds again, the thread did what it guarantees, and
what is left of it keeps its terms. -/
theorem Holds.sound_resume (H : C.Holds S s₀ ok) {i : ι} {m : M}
    (hc : S.Reach s₀ ok c) (hi : C.inv c.shared) (hl : Live C S c) (hok : ok c (.resume i m))
    (hcov : C.covered i) (hs : S.step c (.resume i m) = some c') :
    C.inv c'.shared ∧ C.guar i c.shared c'.shared ∧
      ((∃ op k, c'.pool i = .await op k) →
        (c'.pool i).wp (C.terms S i) (C.post i) c'.shared) := by
  obtain ⟨op, k, r, s₁, hp, ha, rfl⟩ := System.step_resume hs
  have hk := H.known c hc hi
  have hallow := H.allow c i m op k hok hp
  obtain ⟨hga, hwp⟩ : C.guar i c.shared s₁ ∧ (k r).wp (C.terms S i) (C.post i) s₁ := by
    have := hl i hcov ⟨op, k, hp⟩
    rw [hp] at this
    exact this.2 c.shared (H.rely_refl i _) ⟨hi, hk⟩ r s₁ ⟨m, ha, hallow⟩
  obtain ⟨hend, hchain⟩ := hwp.advance
  have hg := H.guar_trans i hga (H.guar_chain hchain)
  have hset := Coro.advance_settled (k r) s₁
  revert hend hg hset
  generalize (k r).advance s₁ = n
  obtain ⟨n, s'⟩ := n
  intro hend hg hset
  cases n with
  | get k => cases hset
  | put s k => cases hset
  | await op k =>
      exact ⟨hend.1, hg, fun _ => by simpa [System.settle] using hend⟩
  | raise e =>
      obtain ⟨hf, hgf⟩ := H.finish i (.error e) s' hcov hend
      refine ⟨hf, H.guar_trans i hg hgf, fun ⟨_, _, h⟩ => ?_⟩
      simp [System.settle] at h
  | ret a =>
      by_cases hag : S.again i a = true
      · have hw := H.again i a s' hcov hend hag
        simp only [System.settle, hag, if_true]
        refine ⟨?_, hg, fun _ => by simpa using hw⟩
        obtain ⟨op, k, hst⟩ := H.start_await i
        rw [hst] at hw
        exact hw.1
      · obtain ⟨hf, hgf⟩ := H.finish i (.ok a) s' hcov hend
        simp only [System.settle, hag, if_false, Bool.false_eq_true]
        refine ⟨hf, H.guar_trans i hg hgf, fun ⟨_, _, h⟩ => ?_⟩
        simp at h

/-- A step of another thread, or of the environment, leaves a thread where it was. -/
theorem pool_of_ne {i : ι} {l : Label ι M V} (hl : ∀ m, l ≠ .resume i m)
    (hs : S.step c l = some c') : c'.pool i = c.pool i := by
  cases l with
  | move v =>
      obtain ⟨s', -, rfl⟩ := System.step_move hs
      rfl
  | resume j m =>
      have hne : i ≠ j := fun h => hl m (by rw [h])
      obtain ⟨op, k, r, s₁, -, -, rfl⟩ := System.step_resume hs
      generalize (k r).advance s₁ = n
      obtain ⟨n, s'⟩ := n
      cases n <;> simp only [System.settle]
      case ret a => split <;> exact Function.update_of_ne hne _ _
      all_goals exact Function.update_of_ne hne _ _

/-- **Soundness.** The invariant holds in every reachable configuration, and every thread
still suspended keeps its terms. -/
theorem Holds.sound (H : C.Holds S s₀ ok) (hc : S.Reach s₀ ok c) :
    C.inv c.shared ∧ Live C S c := by
  induction hc with
  | init => exact ⟨H.init_inv, fun i hi _ => H.start_wp i hi⟩
  | @step c c' l hc hok hs ih =>
      obtain ⟨hi, hlive⟩ := ih
      have hg : ∀ i m, l = .resume i m → C.covered i → C.guar i c.shared c'.shared := by
        rintro i m rfl hcov
        exact (H.sound_resume hc hi hlive hok hcov hs).2.1
      have hi' : C.inv c'.shared := by
        by_cases hcov : ∃ i m, l = .resume i m ∧ C.covered i
        · obtain ⟨i, m, rfl, hcov⟩ := hcov
          exact (H.sound_resume hc hi hlive hok hcov hs).1
        · exact H.others c l c' hc hok hs (fun i m h hcov' => hcov ⟨i, m, h, hcov'⟩) hi
      refine ⟨hi', fun i hcov hat => ?_⟩
      by_cases hmine : ∃ m, l = .resume i m
      · obtain ⟨m, rfl⟩ := hmine
        exact (H.sound_resume hc hi hlive hok hcov hs).2.2 hat
      · have hne : ∀ m, l ≠ .resume i m := fun m h => hmine ⟨m, h⟩
        have hp := pool_of_ne hne hs
        rw [hp] at hat ⊢
        exact (hlive i hcov hat).stable (fun ha hb => H.rely_trans i ha hb)
          (H.rely_step c l c' hc hok hs hi hg i hne hcov) hi' hat

/-- The invariant of a proof outline holds in every reachable configuration. -/
theorem Holds.always (H : C.Holds S s₀ ok) (hc : S.Reach s₀ ok c) : C.inv c.shared :=
  (H.sound hc).1

/-- A step of a thread does what the thread guarantees. -/
theorem Holds.guarantees (H : C.Holds S s₀ ok) {i : ι} {m : M} (hc : S.Reach s₀ ok c)
    (hok : ok c (.resume i m)) (hcov : C.covered i) (hs : S.step c (.resume i m) = some c') :
    C.guar i c.shared c'.shared :=
  (H.sound_resume hc (H.sound hc).1 (H.sound hc).2 hok hcov hs).2.1

end Contract

end Coop
