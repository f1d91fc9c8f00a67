import HorizonRelay.Policy

/-!
# What the readers make of a reply

A reply is untrusted, so what cannot be read must count against the answer.  `float` and
`bool` read more than a model states: `true` is one, whatever is not empty is true, and a
number that is none at all is clamped to one.

## Main definitions

* `Json.Above`, `Json.Below` — the value states a number above or below a bound.
* `AssessmentSafe`, `CritiqueSafe` — a reader trusts a reply only for what it states.
* `Json.CountsHigh`, `Json.CountsLow` — the values that are read as more than they state.

## Main results

* `readers_safe_iff` — when the readers are safe.
-/

namespace Py

/-- A float above a bound. -/
def PyFloat.Above (q : ℚ) : PyFloat → Prop
  | .fin r => q < r
  | .posInf => True
  | .negInf | .nan => False

/-- A float below a bound. -/
def PyFloat.Below (q : ℚ) : PyFloat → Prop
  | .fin r => r < q
  | .negInf => True
  | .posInf | .nan => False

namespace Json

variable (lib : StdLib)

/-- The number a value states: a JSON number, or a text that spells one. -/
def stated : Json → Option PyFloat
  | int n => some (.fin n)
  | float x => some x
  | str s => floatOfStr lib s
  | _ => none

/-- The value states a number above a bound. -/
def Above (q : ℚ) (v : Json) : Prop := ∃ x, v.stated lib = some x ∧ x.Above q

/-- The value states a number below a bound. -/
def Below (q : ℚ) (v : Json) : Prop := ∃ x, v.stated lib = some x ∧ x.Below q

/-- The value is read as one and states no number: `true`, or no number at all. -/
def CountsHigh (v : Json) : Prop := v = bool true ∨ v.stated lib = some .nan

end Json

end Py

namespace HorizonRelay

open Py

variable (lib : StdLib)

/-- The fields a solver's reply is read from. -/
def replyFields (value : Json) : Option (List (Str × Json)) :=
  (value.str?.bind salvage).or value.obj?

/-- The answer of a reply with these fields. -/
def scalarAnswer (fields : List (Str × Json)) : Option Json :=
  (fields.lookup "answer".toList).filter isScalar

/-- The reply is an object with a scalar answer, or a text such fields can be saved from. -/
def Readable (value : Json) : Prop := ((replyFields value).bind scalarAnswer).isSome

/-- What a reply gives as its confidence. -/
def statedConfidence (value : Json) : Option Json :=
  (replyFields value).bind (·.lookup "confidence".toList)

/-- The solver's reply is read, it is not trusted for more than it states, and what cannot be
read is escalated. -/
def AssessmentSafe (value : Json) (stats : Option TokenStats) : Prop :=
  ∃ a, readAssessment lib value stats = .ok a ∧
    (1 / 2 < a.confidence → ∃ c, statedConfidence value = some c ∧ c.Above lib (1 / 2)) ∧
    (¬ Readable value → a.needsEscalation = true)

/-- The critic's reply is read, it passes only what it says has passed, and it counts less
than a failed check only if it says so. -/
def CritiqueSafe (value : Json) : Prop :=
  ∃ c, readCritique lib value = .ok c ∧
    (c.passed = true → value.get? "passed".toList = some (.bool true)) ∧
    (c.severity < 1 → ∃ s, value.get? "severity".toList = some s ∧ s.Below lib 1)

variable {lib : StdLib}

/-! ## Numbers -/

theorem half_lt_clamp_iff {q : ℚ} : 1 / 2 < clamp q ↔ 1 / 2 < q := by
  unfold clamp
  rw [lt_max_iff, lt_min_iff]
  constructor
  · rintro (h | h)
    · norm_num at h
    · exact h.2
  · exact fun h => .inr ⟨by norm_num, h⟩

theorem clamp_lt_one_iff {q : ℚ} : clamp q < 1 ↔ q < 1 := by
  unfold clamp
  rw [max_lt_iff, min_lt_iff]
  constructor
  · rintro ⟨-, h | h⟩
    · exact absurd h (lt_irrefl 1)
    · exact h
  · exact fun h => ⟨zero_lt_one, .inr h⟩

theorem half_lt_clampFloat_iff {x : PyFloat} :
    1 / 2 < clampFloat x ↔ x.Above (1 / 2) ∨ x = .nan := by
  cases x with
  | fin q => simpa [clampFloat, PyFloat.Above] using half_lt_clamp_iff (q := q)
  | posInf => simpa [clampFloat, PyFloat.Above] using two_inv_lt_one (α := ℚ)
  | negInf => simp [clampFloat, PyFloat.Above]
  | nan => simpa [clampFloat, PyFloat.Above] using two_inv_lt_one (α := ℚ)

theorem clampFloat_lt_one_iff {x : PyFloat} : clampFloat x < 1 ↔ x.Below 1 := by
  cases x <;> simp [clampFloat, PyFloat.Below, clamp_lt_one_iff]

/-- What an integer is rounded to makes no difference to what it counts for. -/
theorem clamp_roundDouble_intCast (n : ℤ) : clamp (roundDouble n) = clamp n := by
  by_cases h : n ≤ 0
  · have hn : (n : ℚ) ≤ 0 := by exact_mod_cast h
    rw [clamp_of_nonpos hn, clamp_of_nonpos (roundDouble_le isDouble_zero hn)]
  · have hn : (1 : ℚ) ≤ n := by exact_mod_cast Int.not_le.mp h
    rw [clamp_of_one_le hn, clamp_of_one_le (le_roundDouble isDouble_one hn)]

/-- How a value that is no boolean is read as a number. -/
theorem readNumber_stated (d : ℚ) {v : Json} (hb : ∀ b, v ≠ .bool b) (hl : ¬ v.TooLarge) :
    readNumber lib d v = .ok ((v.stated lib).elim d clampFloat) := by
  cases v with
  | bool b => exact absurd rfl (hb b)
  | int n =>
      have hsmall : ¬ floatBound ≤ n.natAbs := hl
      simp only [readNumber, Json.toFloat, if_neg hsmall]
      exact congrArg Except.ok (clamp_roundDouble_intCast n)
  | str s =>
      simp only [readNumber, Json.toFloat, Json.stated]
      cases Json.floatOfStr lib s <;> rfl
  | _ => rfl

theorem readNumber_bool (d : ℚ) (b : Bool) :
    readNumber lib d (.bool b) = .ok (if b then 1 else 0) := by
  cases b <;> rfl

theorem readNumber_tooLarge (lib : StdLib) (d : ℚ) {v : Json} (hl : v.TooLarge) :
    ∃ e, readNumber lib d v = .error e := by
  cases v with
  | int n =>
      have hlarge : floatBound ≤ n.natAbs := hl
      exact ⟨_, by simp only [readNumber, Json.toFloat, if_pos hlarge]; rfl⟩
  | _ => exact hl.elim

/-- A number is read as more than one half only where one is stated, unless the value counts
as one without stating a number, or is too large to be read. -/
theorem readNumber_above_iff (lib : StdLib) (v : Json) :
    (∃ r, readNumber lib (1 / 2) v = .ok r ∧ (1 / 2 < r → v.Above lib (1 / 2))) ↔
      ¬ v.TooLarge ∧ ¬ v.CountsHigh lib := by
  by_cases hl : v.TooLarge
  · obtain ⟨e, he⟩ := readNumber_tooLarge lib (1 / 2) hl
    simp only [he, hl, reduceCtorEq, false_and, exists_false, not_true_eq_false]
  · by_cases hb : ∃ b, v = .bool b
    · obtain ⟨b, rfl⟩ := hb
      simp only [readNumber_bool, hl, not_false_eq_true, true_and]
      cases b <;> simp [Json.Above, Json.CountsHigh, Json.stated]
      norm_num
    · rw [not_exists] at hb
      simp only [readNumber_stated (1 / 2) hb hl, hl, not_false_eq_true, true_and,
        Except.ok.injEq, exists_eq_left', Json.CountsHigh, hb true, false_or, Json.Above]
      cases v.stated lib with
      | none => simp
      | some x =>
          simp only [Option.elim_some, half_lt_clampFloat_iff, Option.some.injEq,
            exists_eq_left']
          constructor
          · rintro h rfl
            exact h (.inr rfl)
          · rintro h (ha | rfl)
            · exact ha
            · exact absurd rfl h

/-- A severity is read as less than one only where one is stated, unless it is `false` or too
large to be read. -/
theorem readNumber_below_iff (lib : StdLib) (v : Json) :
    (∃ r, readNumber lib 1 v = .ok r ∧ (r < 1 → v.Below lib 1)) ↔
      ¬ v.TooLarge ∧ v ≠ .bool false := by
  by_cases hl : v.TooLarge
  · obtain ⟨e, he⟩ := readNumber_tooLarge lib 1 hl
    simp only [he, hl, reduceCtorEq, false_and, exists_false, not_true_eq_false]
  · by_cases hb : ∃ b, v = .bool b
    · obtain ⟨b, rfl⟩ := hb
      simp only [readNumber_bool, hl, not_false_eq_true, true_and]
      cases b <;> simp [Json.Below, Json.stated]
    · rw [not_exists] at hb
      simp only [readNumber_stated 1 hb hl, hl, not_false_eq_true, true_and,
        Except.ok.injEq, exists_eq_left', ne_eq, hb false, Json.Below, iff_true]
      cases v.stated lib with
      | none => simp
      | some x => simp [clampFloat_lt_one_iff]

/-! ## Replies -/

/-- The number a reply is read with. -/
def confidenceField (value : Json) : Json :=
  (statedConfidence value).getD (.float (.fin (1 / 2)))

/-- A reply that can be read is read as its confidence is. -/
theorem readAssessment_readable (lib : StdLib) {value : Json} (h : Readable value)
    (stats : Option TokenStats) :
    (∀ q, readNumber lib (1 / 2) (confidenceField value) = .ok q →
        ∃ a, readAssessment lib value stats = .ok a ∧ a.confidence = q) ∧
      ∀ e, readNumber lib (1 / 2) (confidenceField value) = .error e →
        readAssessment lib value stats = .error e := by
  have hfold : (value.str?.bind salvage).or value.obj? = replyFields value := rfl
  unfold Readable at h
  unfold readAssessment confidenceField statedConfidence
  simp only [hfold]
  cases hf : replyFields value with
  | none =>
      rw [hf] at h
      cases h
  | some fields =>
      rw [hf, Option.bind_some] at h
      obtain ⟨answer, ha⟩ := Option.isSome_iff_exists.mp h
      unfold scalarAnswer at ha
      simp only [Option.bind_some, ha]
      refine ⟨fun q hq => ?_, fun e he => ?_⟩
      · rw [hq]
        exact ⟨_, rfl, rfl⟩
      · rw [he]
        rfl

/-- A reply that cannot be read is escalated. -/
theorem readAssessment_unreadable (lib : StdLib) {value : Json} (h : ¬ Readable value)
    (stats : Option TokenStats) : ∃ a, readAssessment lib value stats = .ok a ∧
      a.confidence = 15 / 100 ∧ a.needsEscalation = true := by
  have hfold : (value.str?.bind salvage).or value.obj? = replyFields value := rfl
  unfold Readable at h
  unfold readAssessment
  simp only [hfold]
  cases hf : replyFields value with
  | none => exact ⟨_, rfl, rfl, rfl⟩
  | some fields =>
      rw [hf, Option.bind_some, Option.not_isSome_iff_eq_none] at h
      unfold scalarAnswer at h
      simp only [Option.bind_some, h]
      exact ⟨_, rfl, rfl, rfl⟩

theorem assessmentSafe_iff (value : Json) (stats : Option TokenStats) :
    AssessmentSafe lib value stats ↔ (Readable value → ∀ c, statedConfidence value = some c →
      ¬ c.TooLarge ∧ ¬ c.CountsHigh lib) := by
  by_cases h : Readable value
  · obtain ⟨hok, herror⟩ := readAssessment_readable lib h stats
    have hsafe : AssessmentSafe lib value stats ↔
        ∃ r, readNumber lib (1 / 2) (confidenceField value) = .ok r ∧
          (1 / 2 < r → ∃ c, statedConfidence value = some c ∧ c.Above lib (1 / 2)) := by
      unfold AssessmentSafe
      cases hr : readNumber lib (1 / 2) (confidenceField value) with
      | ok q =>
          obtain ⟨a, ha, hq⟩ := hok q hr
          simp [ha, hq, h]
      | error e => simp [herror e hr]
    rw [hsafe]
    unfold confidenceField
    cases hc : statedConfidence value with
    | none =>
        -- without a confidence one half is read, which is not above one half
        refine iff_of_true ⟨1 / 2, ?_, fun hhigh => absurd hhigh (lt_irrefl _)⟩ (by simp)
        have hhalf : clampFloat (.fin (1 / 2)) = 1 / 2 := by decide +kernel
        exact congrArg Except.ok hhalf
    | some c =>
        have hfield := readNumber_above_iff lib c
        simp only [Option.getD_some, Option.some.injEq, exists_eq_left', forall_eq', h,
          true_implies]
        exact hfield
  · obtain ⟨a, ha, hq, hesc⟩ := readAssessment_unreadable lib h stats
    refine iff_of_true ⟨a, ha, fun hhigh => ?_, fun _ => hesc⟩ fun hr => absurd hr h
    rw [hq] at hhigh
    norm_num at hhigh

/-- A field passes only if it is `true`, exactly when nothing else it holds is true to
Python. -/
theorem passed_iff (field : Option Json) :
    ((field.getD (.bool false)).truthy = true → field = some (.bool true)) ↔
      ∀ v, field = some v → v.truthy = true → v = .bool true := by
  cases field with
  | none => exact iff_of_true (fun h => nomatch h) (fun _ h => nomatch h)
  | some v => simp

theorem critiqueSafe_iff (value : Json) : CritiqueSafe lib value ↔
    ∀ s, value.get? "severity".toList = some s → (¬ s.TooLarge ∧ s ≠ .bool false) ∧
      ∀ v, value.get? "passed".toList = some v → v.truthy = true → v = .bool true := by
  unfold CritiqueSafe readCritique
  cases hs : value.get? "severity".toList with
  | none =>
      refine iff_of_true ⟨_, rfl, fun h => ?_, fun h => ?_⟩ (fun _ h => nomatch h)
      · cases h
      · exact absurd h (lt_irrefl 1)
  | some s =>
      rw [← passed_iff]
      simp only [Option.some.injEq, forall_eq', exists_eq_left', ← readNumber_below_iff lib s]
      cases hr : readNumber lib 1 s with
      | error e =>
          refine iff_of_false ?_ ?_
          · rintro ⟨c, hc, -⟩
            cases hc
          · rintro ⟨⟨r, h, -⟩, -⟩
            cases h
      | ok q =>
          constructor
          · rintro ⟨c, hc, hpass, hsev⟩
            cases hc
            exact ⟨⟨q, rfl, hsev⟩, hpass⟩
          · rintro ⟨⟨r, h, hsev⟩, hpass⟩
            cases h
            exact ⟨_, rfl, hpass, hsev⟩

/-- **The readers.** A solver's reply is read safely exactly when its confidence, if the reply
can be read and gives one, is neither `true` nor a number that is none nor an integer too
large for a float; a critic's exactly when its severity is neither `false` nor too large an
integer, and `passed` holds nothing true to Python but `true`. -/
theorem readers_safe_iff (lib : StdLib) (value : Json) (stats : Option TokenStats) :
    (AssessmentSafe lib value stats ↔ (Readable value → ∀ c, statedConfidence value = some c →
      ¬ c.TooLarge ∧ ¬ c.CountsHigh lib)) ∧
    (CritiqueSafe lib value ↔ ∀ s, value.get? "severity".toList = some s →
      (¬ s.TooLarge ∧ s ≠ .bool false) ∧
        ∀ v, value.get? "passed".toList = some v → v.truthy = true → v = .bool true) :=
  ⟨assessmentSafe_iff value stats, critiqueSafe_iff value⟩

/-- The literal `NaN` is trusted as full confidence, and the text `"false"` passes. -/
theorem readers_unsafe_nan :
    (¬ AssessmentSafe asciiLib (.obj [("answer".toList, .str "4".toList),
      ("confidence".toList, .float .nan)]) none) ∧
    ¬ CritiqueSafe asciiLib (.obj [("passed".toList, .str "false".toList),
      ("severity".toList, .float (.fin 1))]) := by
  refine ⟨?_, ?_⟩
  · rintro ⟨a, ha, hconf, -⟩
    cases ha
    obtain ⟨c, hc, x, hx, habove⟩ := hconf (by decide +kernel)
    cases hc
    cases hx
    exact habove
  · rintro ⟨c, hc, hpass, -⟩
    cases hc
    have h := hpass rfl
    cases h

end HorizonRelay
