import Mathlib.Data.Fintype.Card
import Mathlib.Data.Set.Finite.Basic
import Mathlib.Logic.Relation
import Mathlib.Order.Bounds.Basic
import Mathlib.Order.WellFounded

/-!
# Layers of a dependency relation

An element waits for those it needs.  A chain of length `n` from `a` is a sequence of `n`
needs, one after the other.  An element all of whose chains are shorter than `k` can be
reached in `k` rounds, where a round takes what waits for nothing left: `within_succ` is
that step, and the element is on layer `k` when `k` is the length of its longest chain.

## Main definitions

* `Chain`, `Within`, `OnLayer` — chains of needs, and elements whose chains are short.
* `Acyclic` — no element needs itself, at any distance.

## Main results

* `within_succ` — an element is within `k + 1` rounds when all it needs is within `k`.
* `Acyclic.exists_minimal` — a finite set without cycles has an element that needs no other.
-/

namespace Layers

variable {α : Type} {needs : α → α → Prop} {a b : α} {k n : ℕ}

/-- A chain of `n` needs from an element. -/
inductive Chain (needs : α → α → Prop) : α → ℕ → Prop
  | nil (a : α) : Chain needs a 0
  | cons {a b : α} {n : ℕ} : needs a b → Chain needs b n → Chain needs a (n + 1)

/-- Every chain from the element is shorter than `k`. -/
def Within (needs : α → α → Prop) (k : ℕ) (a : α) : Prop := ∀ n, Chain needs a n → n < k

/-- The longest chain from the element has length `k`. -/
def OnLayer (needs : α → α → Prop) (k : ℕ) (a : α) : Prop :=
  IsGreatest {n | Chain needs a n} k

/-- No element needs itself, at any distance. -/
def Acyclic (needs : α → α → Prop) : Prop := ∀ a, ¬ Relation.TransGen needs a a

/-! ## Rounds -/

@[simp] theorem not_within_zero (a : α) : ¬ Within needs 0 a :=
  fun h => absurd (h 0 (.nil a)) (by omega)

theorem Within.mono (h : Within needs k a) (hk : k ≤ n) : Within needs n a :=
  fun m hm => (h m hm).trans_le hk

/-- One round more: everything the element needs was reached before. -/
theorem within_succ : Within needs (k + 1) a ↔ ∀ b, needs a b → Within needs k b := by
  constructor
  · intro h b hb n hn
    have := h (n + 1) (.cons hb hn)
    omega
  · intro h n hn
    cases hn with
    | nil => omega
    | cons hb hn =>
        have := h _ hb _ hn
        omega

/-- A chain can be cut short. -/
theorem Chain.shorten (h : Chain needs a n) (hk : k ≤ n) : Chain needs a k := by
  induction h generalizing k with
  | nil a =>
      obtain rfl : k = 0 := by omega
      exact .nil a
  | cons hb _ ih =>
      cases k with
      | zero => exact .nil _
      | succ k => exact .cons hb (ih (by omega))

/-- The layer of an element is the number of the round before the one that reaches it. -/
theorem onLayer_iff : OnLayer needs k a ↔ Within needs (k + 1) a ∧ ¬ Within needs k a := by
  constructor
  · rintro ⟨hk, hmax⟩
    refine ⟨fun n hn => Nat.lt_succ_of_le (hmax hn), fun h => ?_⟩
    exact absurd (h k hk) (by omega)
  · rintro ⟨hin, hnot⟩
    refine ⟨?_, fun n hn => Nat.le_of_lt_succ (hin n hn)⟩
    by_contra hk
    refine hnot fun n hn => ?_
    by_contra hle
    exact hk (hn.shorten (by omega))

theorem OnLayer.unique (h : OnLayer needs k a) (h' : OnLayer needs n a) : k = n :=
  IsGreatest.unique h h'

/-! ## Cycles -/

/-- A finite set without cycles has an element that needs none of the set. -/
theorem Acyclic.exists_minimal (h : Acyclic needs) {s : Set α} (hs : s.Finite)
    (hne : s.Nonempty) : ∃ a ∈ s, ∀ b, needs a b → b ∉ s := by
  have : Finite s := hs
  let before (b a : s) : Prop := Relation.TransGen needs a.1 b.1
  have : IsTrans s before := ⟨fun _ _ _ hab hbc => hbc.trans hab⟩
  have : Std.Irrefl before := ⟨fun a => h a.1⟩
  have hwf : WellFounded before := Finite.wellFounded_of_trans_of_irrefl before
  obtain ⟨a₀, ha₀⟩ := hne
  obtain ⟨a, -, hmin⟩ := hwf.has_min Set.univ ⟨⟨a₀, ha₀⟩, trivial⟩
  exact ⟨a.1, a.2, fun b hb hmem => hmin ⟨b, hmem⟩ trivial (.single hb)⟩

/-- What lies on a cycle needs something on a cycle. -/
theorem exists_needs_of_cycle (h : Relation.TransGen needs a a) :
    ∃ b, needs a b ∧ Relation.TransGen needs b b := by
  rcases Relation.TransGen.head'_iff.mp h with ⟨b, hab, hba⟩
  exact ⟨b, hab, .tail' hba hab⟩

end Layers
