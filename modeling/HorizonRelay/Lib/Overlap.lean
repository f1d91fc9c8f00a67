import Mathlib.Data.List.Nodup
import Mathlib.Data.Rat.Floor
import Mathlib.Tactic.Linarith

/-!
# Overlap of finite collections

Two ways to say how much two collections without repetition have in common: what they
share by the size of the smaller one, and what they share by the size of both together.

## Main definitions

* `shared` — how many elements two lists have in common.
* `containment`, `jaccard` — the two measures.
-/

namespace Overlap

variable {α : Type} [BEq α] {xs ys : List α}

/-- How many elements of the first list the second has. -/
def shared (xs ys : List α) : ℕ := xs.countP ys.contains

/-- The shared elements by the size of the smaller list. -/
def containment (xs ys : List α) : ℚ := (shared xs ys : ℚ) / (min xs.length ys.length : ℕ)

/-- The shared elements by the size of both lists together. -/
def jaccard (xs ys : List α) : ℚ :=
  (shared xs ys : ℚ) / ((xs.length + ys.length - shared xs ys : ℕ) : ℚ)

theorem shared_le_left (xs ys : List α) : shared xs ys ≤ xs.length := List.countP_le_length

section Lawful
variable [LawfulBEq α]

theorem shared_comm (hx : xs.Nodup) (hy : ys.Nodup) : shared xs ys = shared ys xs := by
  have hperm : (xs.filter ys.contains).Perm (ys.filter xs.contains) := by
    refine (List.perm_ext_iff_of_nodup (hx.filter _) (hy.filter _)).mpr fun a => ?_
    simp only [List.mem_filter, List.contains_iff_mem]
    exact and_comm
  simpa only [shared, List.countP_eq_length_filter] using hperm.length_eq

theorem shared_le_right (hx : xs.Nodup) (hy : ys.Nodup) : shared xs ys ≤ ys.length := by
  rw [shared_comm hx hy]
  exact shared_le_left ys xs

theorem shared_eq_left_iff : shared xs ys = xs.length ↔ xs ⊆ ys := by
  simp only [shared, List.countP_eq_length, List.contains_iff_mem]
  rfl

theorem shared_eq_right_iff (hx : xs.Nodup) (hy : ys.Nodup) :
    shared xs ys = ys.length ↔ ys ⊆ xs := by
  rw [shared_comm hx hy]
  exact shared_eq_left_iff

theorem shared_eq_zero_iff : shared xs ys = 0 ↔ ∀ x ∈ xs, x ∉ ys := by
  simp [shared, List.countP_eq_zero]

theorem containment_le_one (hx : xs.Nodup) (hy : ys.Nodup) : containment xs ys ≤ 1 := by
  refine div_le_one_of_le₀ ?_ (Nat.cast_nonneg _)
  exact_mod_cast le_min (shared_le_left xs ys) (shared_le_right hx hy)

/-- Everything in the smaller list is shared when one list is part of the other. -/
theorem containment_eq_one_iff (hx : xs.Nodup) (hy : ys.Nodup) (hx' : xs ≠ []) (hy' : ys ≠ []) :
    containment xs ys = 1 ↔ xs ⊆ ys ∨ ys ⊆ xs := by
  have hpos : 0 < min xs.length ys.length :=
    lt_min (List.length_pos_iff.mpr hx') (List.length_pos_iff.mpr hy')
  have hne : ((min xs.length ys.length : ℕ) : ℚ) ≠ 0 := by exact_mod_cast hpos.ne'
  rw [containment, div_eq_one_iff_eq hne, Nat.cast_inj, ← shared_eq_left_iff,
    ← shared_eq_right_iff hx hy]
  have hl := shared_le_left xs ys
  have hr := shared_le_right hx hy
  omega

theorem jaccard_le_one (hx : xs.Nodup) (hy : ys.Nodup) : jaccard xs ys ≤ 1 := by
  refine div_le_one_of_le₀ ?_ (Nat.cast_nonneg _)
  have hl := shared_le_left xs ys
  have hr := shared_le_right hx hy
  exact_mod_cast (by omega : shared xs ys ≤ xs.length + ys.length - shared xs ys)

/-- Two lists of which one has an element are never measured at one unless they have the
same elements. -/
theorem jaccard_lt_one (hx : xs.Nodup) (hy : ys.Nodup) (hx' : xs ≠ [])
    (h : ¬ (xs ⊆ ys ∧ ys ⊆ xs)) : jaccard xs ys < 1 := by
  have hl := shared_le_left xs ys
  have hr := shared_le_right hx hy
  have hpos := List.length_pos_iff.mpr hx'
  rw [← shared_eq_left_iff, ← shared_eq_right_iff hx hy] at h
  have hlt : shared xs ys < xs.length + ys.length - shared xs ys := by omega
  rw [jaccard, div_lt_one (by exact_mod_cast Nat.zero_lt_of_lt hlt)]
  exact_mod_cast hlt

theorem jaccard_self (hx' : xs ≠ []) : jaccard xs xs = 1 := by
  have hself : shared xs xs = xs.length := shared_eq_left_iff.mpr fun _ h => h
  have hpos := List.length_pos_iff.mpr hx'
  rw [jaccard, hself, Nat.add_sub_cancel, div_self]
  exact_mod_cast hpos.ne'

theorem jaccard_eq_zero_iff (hx : xs.Nodup) (hy : ys.Nodup) (hx' : xs ≠ []) :
    jaccard xs ys = 0 ↔ ∀ x ∈ xs, x ∉ ys := by
  have hl := shared_le_left xs ys
  have hr := shared_le_right hx hy
  have hpos := List.length_pos_iff.mpr hx'
  rw [← shared_eq_zero_iff, jaccard, div_eq_zero_iff]
  norm_cast
  omega

end Lawful

end Overlap
