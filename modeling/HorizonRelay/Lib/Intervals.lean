import Mathlib.Data.Int.Interval
import Mathlib.Data.List.Sort
import Mathlib.Tactic.Ring
import Mathlib.Order.ConditionallyCompleteLattice.Basic
import Mathlib.Data.Int.ConditionallyCompleteOrder

/-!
# Counting overlapping intervals

Half-open intervals of integers, and the two ways to count those that run at a moment: by
looking at each of them, and by adding up the changes at their ends.

## Main definitions

* `Interval`, `cover` — intervals, and how many of them cover a moment.
* `edges`, `level` — the changes at the ends, and their sum up to a moment.
* `crowded` — the moments that two intervals cover.

## Main results

* `level_edges` — both ways of counting agree.
* `crowded_eq_empty_iff` — no two intervals overlap if and only if no moment is crowded.
-/

namespace Intervals

/-- The integers from `start` up to, but without, `stop`. -/
structure Interval : Type where
  start : ℤ
  stop : ℤ
  le : start ≤ stop

/-- A moment lies in an interval. -/
def Interval.Covers (i : Interval) (m : ℤ) : Prop := i.start ≤ m ∧ m < i.stop

instance (i : Interval) (m : ℤ) : Decidable (i.Covers m) := inferInstanceAs (Decidable (_ ∧ _))

/-- How many intervals of a list cover a moment. -/
def cover (is : List Interval) (m : ℤ) : ℕ := is.countP fun i => i.Covers m

/-- What each interval changes: one more at its start, one fewer at its end. -/
def edges (is : List Interval) : List (ℤ × ℤ) :=
  (is.map fun i => (i.start, 1)) ++ is.map fun i => (i.stop, -1)

/-- The sum of all changes up to a moment. -/
def level (es : List (ℤ × ℤ)) (m : ℤ) : ℤ := ((es.filter fun e => e.1 ≤ m).map Prod.snd).sum

/-- The moments at least two intervals cover. -/
def crowded (is : List Interval) : Set ℤ := {m | 2 ≤ cover is m}

variable {is : List Interval} {es es' : List (ℤ × ℤ)} {i j : Interval} {m : ℤ}

/-! ## Levels -/

@[simp] theorem level_nil (m : ℤ) : level [] m = 0 := rfl

theorem level_cons (e : ℤ × ℤ) (es : List (ℤ × ℤ)) (m : ℤ) :
    level (e :: es) m = (if e.1 ≤ m then e.2 else 0) + level es m := by
  by_cases h : e.1 ≤ m <;> simp [level, h]

theorem level_append (es es' : List (ℤ × ℤ)) (m : ℤ) :
    level (es ++ es') m = level es m + level es' m := by
  simp [level]

/-- The order of the changes does not matter. -/
theorem level_perm (h : es.Perm es') (m : ℤ) : level es m = level es' m :=
  ((h.filter _).map _).sum_eq

/-- Before the first change there is none. -/
theorem level_of_lt (h : ∀ e ∈ es, m < e.1) : level es m = 0 := by
  have hnone : (es.filter fun e => e.1 ≤ m) = [] := by
    simpa using fun a b hab => h (a, b) hab
  simp [level, hnone]

/-- After the last change all of them count. -/
theorem level_of_le (h : ∀ e ∈ es, e.1 ≤ m) : level es m = (es.map Prod.snd).sum := by
  have hall : (es.filter fun e => e.1 ≤ m) = es := by
    simpa using fun a b hab => h (a, b) hab
  simp [level, hall]

/-- **Adding up the changes counts the intervals.** -/
theorem level_edges (is : List Interval) (m : ℤ) : level (edges is) m = cover is m := by
  induction is with
  | nil => rfl
  | cons i is ih =>
      have hle := i.le
      simp only [edges, level_append] at ih
      simp only [edges, List.map_cons, List.cons_append, level_cons, level_append, cover,
        List.countP_cons, Nat.cast_add]
      simp only [cover] at ih
      rw [← ih]
      by_cases hs : i.start ≤ m
      · by_cases he : i.stop ≤ m
        · simp [hs, he, Interval.Covers, not_lt.mpr he]
          ring
        · simp [hs, he, Interval.Covers, not_le.mp he]
          ring
      · have he : ¬ i.stop ≤ m := by omega
        simp [hs, he, Interval.Covers]

theorem sum_edges (is : List Interval) : ((edges is).map Prod.snd).sum = 0 := by
  simp [edges, Function.comp_def]

theorem edges_eq_nil_iff : edges is = [] ↔ is = [] := by
  simp [edges]

/-! ## Crowded moments -/

/-- Two intervals have no moment in common. -/
def Interval.Apart (i j : Interval) : Prop := ∀ m, ¬ (i.Covers m ∧ j.Covers m)

/-- Nothing holds of two elements at once if and only if it never holds of more than one. -/
theorem countP_le_one_iff {α β : Type} (p : β → α → Bool) (as : List α) :
    (∀ m, as.countP (p m) ≤ 1) ↔ as.Pairwise fun a b => ∀ m, ¬ (p m a = true ∧ p m b = true) := by
  induction as with
  | nil => simp
  | cons a as ih =>
      rw [List.pairwise_cons, ← ih]
      constructor
      · intro h
        refine ⟨fun b hb m hm => ?_, fun m => ?_⟩
        · have hone := h m
          have hpos := List.countP_pos_iff.mpr ⟨b, hb, hm.2⟩
          rw [List.countP_cons, if_pos hm.1] at hone
          omega
        · exact le_trans (by simp [List.countP_cons]) (h m)
      · rintro ⟨ha, hrest⟩ m
        rw [List.countP_cons]
        by_cases hpa : p m a = true
        · have hnone : as.countP (p m) = 0 :=
            List.countP_eq_zero.mpr fun b hb hpb => ha b hb m ⟨hpa, hpb⟩
          simp [hpa, hnone]
        · simpa [hpa] using hrest m

/-- No moment is crowded if and only if any two of the intervals are apart. -/
theorem crowded_eq_empty_iff : crowded is = ∅ ↔ is.Pairwise Interval.Apart := by
  have h := countP_le_one_iff (fun m (i : Interval) => decide (i.Covers m)) is
  simp only [decide_eq_true_eq] at h
  refine Iff.trans ?_ h
  simp only [crowded, Set.eq_empty_iff_forall_notMem, Set.mem_ofPred_eq, not_le, cover]
  exact forall_congr' fun m => Nat.lt_succ_iff

/-- Of two intervals the second of which starts no earlier, the first one ends in time or the
second one is empty. -/
theorem apart_iff_of_le (h : i.start ≤ j.start) :
    i.Apart j ↔ i.stop ≤ j.start ∨ j.stop = j.start := by
  have hi := i.le
  have hj := j.le
  constructor
  · intro hapart
    by_contra hcon
    refine hapart j.start ?_
    simp only [Interval.Covers]
    omega
  · intro hor m hm
    simp only [Interval.Covers] at hm
    omega

/-- The crowded moments lie where the level is above one, between two moments that enclose all
changes. -/
theorem crowded_eq_filter {a b : ℤ} (ha : ∀ e ∈ edges is, a ≤ e.1)
    (hb : ∀ e ∈ edges is, e.1 ≤ b) :
    crowded is = ((Finset.Ico a b).filter fun m => 1 < level (edges is) m : Finset ℤ) := by
  ext m
  simp only [crowded, Set.mem_ofPred_eq, Finset.coe_filter, Finset.mem_Ico]
  have hcount := level_edges is m
  constructor
  · intro hm
    refine ⟨⟨?_, ?_⟩, by omega⟩
    · by_contra hlt
      have := level_of_lt (m := m) fun e he => lt_of_lt_of_le (by omega) (ha e he)
      omega
    · by_contra hlt
      have := level_of_le (m := m) fun e he => le_trans (hb e he) (by omega)
      rw [sum_edges] at this
      omega
  · rintro ⟨-, hm⟩
    omega

end Intervals
