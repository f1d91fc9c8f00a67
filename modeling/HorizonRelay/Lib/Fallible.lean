import Mathlib.Control.Basic

/-!
# Computations that fail

How a sequence of steps succeeds and how it fails: a run over a list fails at its first
element that fails.

## Main definitions

* `FailsFirst` — the first element of a list that is not good is a bad one.

## Main results

* `bind_eq_ok`, `bind_eq_error` — a sequence of two steps.
* `mapM_eq_error`, `foldlM_eq_foldl`, `foldlM_fails` — a run over a list.
* `mapM_eq_some_iff` — the same where a step only may have no outcome.
-/

namespace Py

/-- Some element is bad, and all before it are good. -/
def FailsFirst {α : Type} (good bad : α → Prop) (as : List α) : Prop :=
  ∃ before a after, as = before ++ a :: after ∧ (∀ b ∈ before, good b) ∧ bad a

theorem FailsFirst.ne_nil {α : Type} {good bad : α → Prop} {as : List α}
    (h : FailsFirst good bad as) : as ≠ [] := by
  obtain ⟨before, a, after, rfl, -⟩ := h
  exact List.append_ne_nil_of_right_ne_nil _ (List.cons_ne_nil _ _)

section Steps
variable {ε α β : Type}

@[simp] theorem ok_bind (a : α) (f : α → Except ε β) : (Except.ok a >>= f) = f a := rfl

@[simp] theorem error_bind (e : ε) (f : α → Except ε β) : (Except.error e >>= f) = .error e := rfl

theorem map_eq_ok {r : Except ε α} {f : α → β} {b : β} :
    r.map f = .ok b ↔ ∃ a, r = .ok a ∧ f a = b := by
  cases r with
  | ok a => simp [Except.map]
  | error e => simp [Except.map]

/-- A sequence of two steps succeeds when both do. -/
theorem bind_eq_ok {r : Except ε α} {f : α → Except ε β} {b : β} :
    (r >>= f) = .ok b ↔ ∃ a, r = .ok a ∧ f a = .ok b := by
  cases r with
  | ok a => simp [bind, Except.bind]
  | error e => simp [bind, Except.bind]

/-- A sequence of two steps fails when one does. -/
theorem bind_eq_error {r : Except ε α} {f : α → Except ε β} {e : ε} :
    (r >>= f) = .error e ↔ r = .error e ∨ ∃ a, r = .ok a ∧ f a = .error e := by
  cases r with
  | ok a => simp [bind, Except.bind]
  | error e' => simp [bind, Except.bind]

/-- Not to succeed is to fail. -/
theorem forall_ne_ok {r : Except ε α} : (∀ a, r ≠ .ok a) ↔ ∃ e, r = .error e := by
  cases r with
  | ok a => simp
  | error e => simp

/-- A run over a list fails at its first element that fails. -/
theorem mapM_eq_error {f : α → Except ε β} {as : List α} {e : ε} :
    as.mapM f = .error e ↔ FailsFirst (fun a => ∃ b, f a = .ok b) (fun a => f a = .error e) as := by
  induction as with
  | nil =>
      refine iff_of_false ?_ ?_
      · intro h
        cases h
      · exact fun h => h.ne_nil rfl
  | cons a as ih =>
      rw [List.mapM_cons, bind_eq_error]
      constructor
      · rintro (h | ⟨b, hb, h⟩)
        · exact ⟨[], a, as, rfl, by simp, h⟩
        · rcases bind_eq_error.mp h with h | ⟨bs, -, h⟩
          · obtain ⟨before, a', after, rfl, hgood, hbad⟩ := ih.mp h
            refine ⟨a :: before, a', after, rfl, ?_, hbad⟩
            rw [List.forall_mem_cons]
            exact ⟨⟨b, hb⟩, hgood⟩
          · cases h
      · rintro ⟨before, a', after, h, hgood, hbad⟩
        cases before with
        | nil =>
            rw [List.nil_append, List.cons.injEq] at h
            rw [h.1]
            exact .inl hbad
        | cons b before =>
            rw [List.cons_append, List.cons.injEq] at h
            obtain ⟨rfl, rfl⟩ := h
            rw [List.forall_mem_cons] at hgood
            obtain ⟨⟨c, hc⟩, hgood⟩ := hgood
            exact .inr
              ⟨c, hc, bind_eq_error.mpr (.inl (ih.mpr ⟨before, a', after, rfl, hgood, hbad⟩))⟩

/-- A run over a list succeeds when every element does. -/
theorem exists_mapM_eq_ok {f : α → Except ε β} {as : List α} :
    (∃ bs, as.mapM f = .ok bs) ↔ ∀ a ∈ as, ∃ b, f a = .ok b := by
  induction as with
  | nil => exact iff_of_true ⟨[], rfl⟩ (by simp)
  | cons a as ih =>
      rw [List.forall_mem_cons, ← ih, List.mapM_cons]
      constructor
      · rintro ⟨bs, h⟩
        obtain ⟨b, hb, h⟩ := bind_eq_ok.mp h
        obtain ⟨cs, hcs, -⟩ := bind_eq_ok.mp h
        exact ⟨⟨b, hb⟩, cs, hcs⟩
      · rintro ⟨⟨b, hb⟩, cs, hcs⟩
        exact ⟨b :: cs, bind_eq_ok.mpr ⟨b, hb, bind_eq_ok.mpr ⟨cs, hcs, rfl⟩⟩⟩

/-- A loop whose steps are those of a total function while the elements are good. -/
theorem foldlM_eq_foldl {f : β → α → Except ε β} {g : β → α → β} {good : α → Prop}
    (hgood : ∀ s a, good a → f s a = .ok (g s a)) {as : List α} (h : ∀ a ∈ as, good a) (s : β) :
    as.foldlM f s = .ok (as.foldl g s) := by
  induction as generalizing s with
  | nil => rfl
  | cons a as ih =>
      rw [List.forall_mem_cons] at h
      rw [List.foldlM_cons, hgood s a h.1]
      exact ih h.2 (g s a)

/-- Such a loop fails when some element is not good and no step goes on from there. -/
theorem foldlM_fails {f : β → α → Except ε β} {g : β → α → β} {good : α → Prop}
    (hgood : ∀ s a, good a → f s a = .ok (g s a)) (hbad : ∀ s a, ¬ good a → ∃ e, f s a = .error e)
    {as : List α} (h : ¬ ∀ a ∈ as, good a) (s : β) : ∃ e, as.foldlM f s = .error e := by
  induction as generalizing s with
  | nil => exact absurd (by simp) h
  | cons a as ih =>
      rw [List.foldlM_cons]
      by_cases ha : good a
      · rw [List.forall_mem_cons, not_and] at h
        rw [hgood s a ha]
        exact ih (h ha) (g s a)
      · obtain ⟨e, he⟩ := hbad s a ha
        rw [he]
        exact ⟨e, rfl⟩

end Steps

section Options
variable {α β : Type} {f : α → Option β} {as : List α}

/-- A run over a list has an outcome when every element has one. -/
theorem mapM_eq_some_iff {bs : List β} : as.mapM f = some bs ↔ as.map f = bs.map some := by
  induction as generalizing bs with
  | nil =>
      rw [List.mapM_nil, List.map_nil, eq_comm (a := []), List.map_eq_nil_iff]
      exact Option.some_inj.trans eq_comm
  | cons a as ih =>
      rw [List.mapM_cons, List.map_cons]
      constructor
      · intro h
        obtain ⟨b, hb, h⟩ := Option.bind_eq_some_iff.mp h
        obtain ⟨bs', hbs, h⟩ := Option.bind_eq_some_iff.mp h
        cases h
        rw [hb, ih.mp hbs, List.map_cons]
      · intro h
        cases bs with
        | nil => cases h
        | cons b bs =>
            rw [List.map_cons, List.cons.injEq] at h
            rw [h.1, ih.mpr h.2]
            rfl

theorem exists_mapM_eq_some : (∃ bs, as.mapM f = some bs) ↔ ∀ a ∈ as, (f a).isSome := by
  constructor
  · rintro ⟨bs, h⟩ a ha
    have hmem := List.mem_map_of_mem (f := f) ha
    rw [mapM_eq_some_iff.mp h] at hmem
    obtain ⟨b, -, hb⟩ := List.mem_map.mp hmem
    rw [← hb]
    rfl
  · intro h
    induction as with
    | nil => exact ⟨[], rfl⟩
    | cons a as ih =>
        rw [List.forall_mem_cons] at h
        obtain ⟨b, hb⟩ := Option.isSome_iff_exists.mp h.1
        obtain ⟨bs, hbs⟩ := ih h.2
        exact ⟨b :: bs, by rw [List.mapM_cons, hb, hbs]; rfl⟩

theorem getElem?_of_mapM_eq_some {bs : List β} (h : as.mapM f = some bs) {i : Nat} {a : α}
    (ha : as[i]? = some a) : ∃ b, bs[i]? = some b ∧ f a = some b := by
  have hmap : (as.map f)[i]? = (bs.map some)[i]? := by rw [mapM_eq_some_iff.mp h]
  simp only [List.getElem?_map, ha, Option.map_some] at hmap
  obtain ⟨b, hb, heq⟩ := Option.map_eq_some_iff.mp hmap.symm
  exact ⟨b, hb, heq.symm⟩

end Options

end Py
