import Mathlib.Data.List.Infix

/-!
# Occurrences of a pattern in a text

A pattern that does not have a certain element has no occurrence across that element, so a
text that is held together by such elements has an occurrence only in one of its parts.

## Main definitions

* `Free` — a text has no occurrence of a pattern.

## Main results

* `free_append_cons_iff` — texts on both sides of an element that is not in the pattern.
-/

namespace Infix

variable {α : Type} {p x y z : List α} {c : α}

/-- The pattern does not occur in the text. -/
def Free (p x : List α) : Prop := ¬ p <:+: x

instance [DecidableEq α] (p x : List α) : Decidable (Free p x) := inferInstanceAs (Decidable (¬ _))

theorem Free.nil (hp : p ≠ []) : Free p [] := fun h => hp (List.infix_nil.mp h)

theorem Free.part (h : Free p y) (hxy : x <:+: y) : Free p x := fun hp => h (hp.trans hxy)

theorem infix_append_cons_iff (hp : p ≠ []) (hc : c ∉ p) :
    p <:+: x ++ c :: y ↔ p <:+: x ∨ p <:+: y := by
  constructor
  · rintro ⟨s, t, h⟩
    rw [List.append_assoc] at h
    rcases List.append_eq_append_iff.mp h with ⟨a, hx, hrest⟩ | ⟨b, hs, hrest⟩
    · -- the occurrence begins in the first part
      rcases List.append_eq_append_iff.mp hrest with ⟨a', ha, -⟩ | ⟨b', hpb, hcy⟩
      · exact .inl ⟨s, a', by rw [hx, ha, List.append_assoc]⟩
      · cases b' with
        | nil => exact .inl ⟨s, [], by rw [hx, hpb]; simp⟩
        | cons d b' =>
            obtain ⟨rfl, -⟩ := List.cons.inj hcy
            exact absurd (by simp [hpb]) hc
    · cases b with
      | nil =>
          cases p with
          | nil => exact absurd rfl hp
          | cons d p =>
              obtain ⟨rfl, -⟩ := List.cons.inj hrest
              exact absurd List.mem_cons_self hc
      | cons d b =>
          obtain ⟨-, hy⟩ := List.cons.inj hrest
          exact .inr ⟨b, t, by rw [hy, List.append_assoc]; rfl⟩
  · rintro (h | h)
    · exact h.trans (List.prefix_append x _).isInfix
    · exact h.trans ((List.suffix_cons c y).trans (List.suffix_append x _)).isInfix

/-- No occurrence stands across an element that is not in the pattern. -/
theorem free_append_cons_iff (hp : p ≠ []) (hc : c ∉ p) :
    Free p (x ++ c :: y) ↔ Free p x ∧ Free p y := by
  simp only [Free, infix_append_cons_iff hp hc, not_or]

theorem free_cons_iff (hp : p ≠ []) (hc : c ∉ p) : Free p (c :: y) ↔ Free p y := by
  have h := free_append_cons_iff (x := []) (y := y) hp hc
  simpa [Free.nil hp] using h

/-- A front without elements of the pattern makes no difference. -/
theorem free_append_iff (hp : p ≠ []) (hx : ∀ c ∈ x, c ∉ p) : Free p (x ++ y) ↔ Free p y := by
  induction x with
  | nil => exact Iff.rfl
  | cons c x ih =>
      rw [List.cons_append, free_cons_iff hp (hx c (by simp))]
      exact ih fun d hd => hx d (by simp [hd])

/-- A pattern whose first element comes only once in it does not begin before the place where it
stands, if it is not in the text before. -/
theorem Free.not_prefix {d : α} (h : Free (c :: p) (d :: x)) (hc : c ∉ p) :
    ¬ c :: p <+: (d :: x) ++ (c :: p ++ y) := by
  rintro ⟨r, hr⟩
  rcases List.append_eq_append_iff.mp hr with ⟨a, hx, -⟩ | ⟨b, hx, hrest⟩
  · exact h ⟨[], a, by simpa using hx.symm⟩
  · cases b with
    | nil => exact h ⟨[], [], by simpa using hx⟩
    | cons e b =>
        -- the pattern would begin once more inside itself
        obtain ⟨rfl, -⟩ := List.cons.inj hrest
        obtain ⟨-, hp⟩ := List.cons.inj hx
        exact hc (by simp [hp])

end Infix
