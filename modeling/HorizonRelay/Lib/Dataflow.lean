import HorizonRelay.Lib.Layers

/-!
# Programs that are dependency graphs

A program is a set of cells.  Each has a rule that computes its value from the values of the
cells it needs, if it has one.  `Computes` is what such a program means, and it mentions no
order of evaluation.  An evaluator that fills a table of values in some order is right when
every entry of the table follows from the others, which is what `Explains` says.

## Main definitions

* `Local` — rules that read nothing but what their cells need.
* `Computes` — the values of the cells.
* `Explains` — tables whose entries follow from each other.

## Main results

* `Computes.unique` — a cell has at most one value.
* `Explains.computes` — the entries of such a table are the values of the cells.
-/

namespace Dataflow

variable {α β : Type} {needs : α → α → Prop} {rule : α → (α → Option β) → Option β}
  {a : α} {v v' : β} {env table table' : α → Option β}

/-- A rule reads nothing but the cells its own cell needs. -/
def Local (needs : α → α → Prop) (rule : α → (α → Option β) → Option β) : Prop :=
  ∀ a env env', (∀ b, needs a b → env b = env' b) → rule a env = rule a env'

/-- The value of a cell: what its rule makes of the values of the cells it needs. -/
inductive Computes (needs : α → α → Prop) (rule : α → (α → Option β) → Option β) :
    α → β → Prop
  | intro {a : α} {v : β} (env : α → Option β) :
      (∀ b, needs a b → (env b).isSome) →
      (∀ b w, needs a b → env b = some w → Computes needs rule b w) →
      rule a env = some v → Computes needs rule a v

/-- Whatever is known about the cells a cell needs, its rule reads their values. -/
theorem Computes.rule_eq (hl : Local needs rule) (h : Computes needs rule a v)
    (hsome : ∀ b, needs a b → (env b).isSome)
    (henv : ∀ b w w', needs a b → env b = some w → Computes needs rule b w' → w = w') :
    rule a env = some v := by
  cases h with
  | intro env' hsome' hvals hv =>
      rw [← hv]
      apply hl
      intro b hb
      obtain ⟨w, hw⟩ := Option.isSome_iff_exists.mp (hsome b hb)
      obtain ⟨w', hw'⟩ := Option.isSome_iff_exists.mp (hsome' b hb)
      rw [hw, hw', henv b w w' hb hw (hvals b w' hb hw')]

/-- A cell has at most one value. By induction on how it is computed. -/
theorem Computes.unique (hl : Local needs rule) (h : Computes needs rule a v)
    (h' : Computes needs rule a v') : v = v' := by
  induction h generalizing v' with
  | intro env hsome _ hv ih =>
      have := h'.rule_eq hl hsome fun b w w' hb hw hw' => ih b w hb hw hw'
      exact Option.some.inj (hv.symm.trans this)

/-- A cell whose rule gives nothing, from the values of the cells it needs, has no value. -/
theorem not_computes (hl : Local needs rule) (hsome : ∀ b, needs a b → (env b).isSome)
    (hvals : ∀ b w, needs a b → env b = some w → Computes needs rule b w)
    (hnone : rule a env = none) : ¬ Computes needs rule a v := by
  intro h
  have := h.rule_eq hl hsome fun b w w' hb hw hw' => (hvals b w hb hw).unique hl hw'
  rw [hnone] at this
  cases this

/-- Every entry of the table follows from entries of the table. -/
structure Explains (needs : α → α → Prop) (rule : α → (α → Option β) → Option β)
    (table : α → Option β) : Prop where
  closed : ∀ a v, table a = some v → ∀ b, needs a b → (table b).isSome
  follows : ∀ a v, table a = some v → rule a table = some v

/-- **The entries of a table that explains itself are the values of the cells**, in whatever
order they came about. An entry without that property has one before it, and so on. -/
theorem Explains.computes (h : Explains needs rule table) (hacyclic : Layers.Acyclic needs)
    (hfinite : {a | (table a).isSome}.Finite) (hv : table a = some v) :
    Computes needs rule a v := by
  by_contra hnot
  obtain ⟨b, ⟨w, hw, hbad⟩, hmin⟩ := hacyclic.exists_minimal
    (s := {a | ∃ v, table a = some v ∧ ¬ Computes needs rule a v})
    (hfinite.subset fun b ⟨w, hw, _⟩ => by simp [hw]) ⟨a, v, hv, hnot⟩
  refine hbad (.intro table (h.closed b w hw) (fun d u hd hu => ?_) (h.follows b w hw))
  by_contra hnot
  exact hmin d hd ⟨u, hu, hnot⟩

end Dataflow
