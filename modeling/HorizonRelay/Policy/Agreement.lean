import HorizonRelay.Lib.Overlap
import HorizonRelay.Policy.Numbers
import Mathlib.Data.List.Dedup

/-!
# How much two answers agree

`agreement` is the largest of three measures, unless the answers state numbers and share
none.  So different numbers keep it below one only as long as nothing else reaches one: the
same words are enough to hide that one number of several differs.

## Main definitions

* `surface`, `substance` — the measures of the wording and of the words.
* `DifferentNumbers`, `DisjointNumbers` — the answers state different numbers, or share none.
* `AgreementSound` — what the measure is for.
-/

namespace HorizonRelay

open Py Overlap

variable (lib : StdLib)

/-- `" ".join(s.lower().split())`. -/
def flatText (s : Str) : Str := Str.join [' '] (lib.lower s).words

/-- How alike the wording is. -/
def surface (a b : Str) : ℚ := lib.ratio (flatText lib a) (flatText lib b)

/-- How many of the words that carry substance are shared. -/
def substance (a b : Str) : ℚ :=
  if contentWords lib a ≠ [] ∧ contentWords lib b ≠ [] then
    containment (contentWords lib a) (contentWords lib b)
  else surface lib a b

/-- Both answers state numbers, and not the same ones. -/
def DifferentNumbers (a b : Str) : Prop :=
  numbersIn lib a ≠ [] ∧ numbersIn lib b ≠ [] ∧
    ¬ (numbersIn lib a ⊆ numbersIn lib b ∧ numbersIn lib b ⊆ numbersIn lib a)

/-- Both answers state numbers, and they have none in common. -/
def DisjointNumbers (a b : Str) : Prop :=
  numbersIn lib a ≠ [] ∧ numbersIn lib b ≠ [] ∧ ∀ n ∈ numbersIn lib a, n ∉ numbersIn lib b

/-- The words of one answer that carry its substance are all in the other. -/
def WordsNested (a b : Str) : Prop :=
  contentWords lib a ≠ [] ∧ contentWords lib b ≠ [] ∧
    (contentWords lib a ⊆ contentWords lib b ∨ contentWords lib b ⊆ contentWords lib a)

/-- Agreement lies between zero and one, is one of an answer with itself, and different
numbers are disagreement. -/
structure AgreementSound (a b : Str) : Prop where
  nonneg : 0 ≤ agreement lib a b
  le_one : agreement lib a b ≤ 1
  self : agreement lib a a = 1
  differ : DifferentNumbers lib a b → agreement lib a b < 1
  disjoint : DisjointNumbers lib a b → agreement lib a b ≤ 3 / 10

variable {lib : StdLib} {a b : Str}

theorem nodup_contentWords (lib : StdLib) (s : Str) : (contentWords lib s).Nodup :=
  List.nodup_dedup _

theorem nodup_numbersIn (lib : StdLib) (s : Str) : (numbersIn lib s).Nodup := List.nodup_dedup _

/-- The measure, in the words of its parts. -/
theorem agreement_eq (a b : Str) : agreement lib a b =
    if numbersIn lib a ≠ [] ∧ numbersIn lib b ≠ [] then
      if jaccard (numbersIn lib a) (numbersIn lib b) = 0 then min (surface lib a b) (3 / 10)
      else max (max (surface lib a b) (substance lib a b))
        (jaccard (numbersIn lib a) (numbersIn lib b))
    else max (surface lib a b) (substance lib a b) := rfl

theorem agreement_of_disjoint (h : DisjointNumbers lib a b) :
    agreement lib a b = min (surface lib a b) (3 / 10) := by
  obtain ⟨ha, hb, hdis⟩ := h
  have hzero := (jaccard_eq_zero_iff (nodup_numbersIn lib a) (nodup_numbersIn lib b) ha).mpr hdis
  rw [agreement_eq, if_pos ⟨ha, hb⟩, if_pos hzero]

theorem agreement_of_overlapping (h : DifferentNumbers lib a b) (hdis : ¬ DisjointNumbers lib a b) :
    agreement lib a b = max (max (surface lib a b) (substance lib a b))
      (jaccard (numbersIn lib a) (numbersIn lib b)) := by
  obtain ⟨ha, hb, -⟩ := h
  have hzero : ¬ jaccard (numbersIn lib a) (numbersIn lib b) = 0 := fun hz =>
    hdis ⟨ha, hb, (jaccard_eq_zero_iff (nodup_numbersIn lib a) (nodup_numbersIn lib b) ha).mp hz⟩
  rw [agreement_eq, if_pos ⟨ha, hb⟩, if_neg hzero]

/-- The words reach one when the words of one answer are all in the other, or when there is
only the wording to go by. -/
theorem substance_lt_one_iff (hs : surface lib a b < 1) :
    substance lib a b < 1 ↔ ¬ WordsNested lib a b := by
  unfold substance WordsNested
  by_cases hw : contentWords lib a ≠ [] ∧ contentWords lib b ≠ []
  · have hone := containment_eq_one_iff (nodup_contentWords lib a)
      (nodup_contentWords lib b) hw.1 hw.2
    have hle := containment_le_one (nodup_contentWords lib a)
      (nodup_contentWords lib b)
    rw [if_pos hw, lt_iff_le_and_ne]
    simp only [hle, true_and, ne_eq, hone, hw.1, hw.2, not_false_eq_true]
  · rw [if_neg hw]
    simp only [hs, true_iff]
    exact fun h => hw ⟨h.1, h.2.1⟩

/-- Numbers that are only partly different are disagreement exactly when neither the wording
nor the words make up for them. -/
theorem agreement_lt_one_iff (h : DifferentNumbers lib a b) (hdis : ¬ DisjointNumbers lib a b) :
    agreement lib a b < 1 ↔ surface lib a b < 1 ∧ ¬ WordsNested lib a b := by
  have hj := jaccard_lt_one (nodup_numbersIn lib a) (nodup_numbersIn lib b)
    h.1 h.2.2
  rw [agreement_of_overlapping h hdis, max_lt_iff, max_lt_iff]
  constructor
  · rintro ⟨⟨hs, hw⟩, -⟩
    exact ⟨hs, (substance_lt_one_iff hs).mp hw⟩
  · rintro ⟨hs, hw⟩
    exact ⟨⟨hs, (substance_lt_one_iff hs).mpr hw⟩, hj⟩

section Laws
variable (hlib : lib.RatioLaws)
include hlib

theorem surface_nonneg (a b : Str) : 0 ≤ surface lib a b := hlib.nonneg _ _

theorem surface_le_one (a b : Str) : surface lib a b ≤ 1 := hlib.le_one _ _

theorem surface_self (a : Str) : surface lib a a = 1 := hlib.self _

theorem substance_le_one (a b : Str) : substance lib a b ≤ 1 := by
  unfold substance
  split
  · exact containment_le_one (nodup_contentWords lib a) (nodup_contentWords lib b)
  · exact surface_le_one hlib a b

theorem agreement_nonneg (a b : Str) : 0 ≤ agreement lib a b := by
  have hs := surface_nonneg hlib a b
  rw [agreement_eq]
  split
  · split
    · exact le_min hs (by norm_num)
    · exact le_max_of_le_left (le_max_of_le_left hs)
  · exact le_max_of_le_left hs

theorem agreement_le_one (a b : Str) : agreement lib a b ≤ 1 := by
  have hs := surface_le_one hlib a b
  have hw := substance_le_one hlib a b
  have hj := jaccard_le_one (nodup_numbersIn lib a) (nodup_numbersIn lib b)
  rw [agreement_eq]
  split
  · split
    · exact (min_le_left _ _).trans hs
    · exact max_le (max_le hs hw) hj
  · exact max_le hs hw

theorem agreement_self (a : Str) : agreement lib a a = 1 := by
  refine le_antisymm (agreement_le_one hlib a a) ?_
  have hs := surface_self hlib a
  rw [agreement_eq]
  by_cases hn : numbersIn lib a ≠ []
  · have hj := jaccard_self hn
    rw [if_pos ⟨hn, hn⟩, if_neg (by rw [hj]; norm_num), hj]
    exact le_max_right _ _
  · rw [if_neg fun h => hn h.1, hs]
    exact le_max_left _ _

/-- Answers that state different numbers are worded differently. -/
theorem surface_lt_one (htext : lib.TextLaws) (h : DifferentNumbers lib a b) :
    surface lib a b < 1 := by
  refine lt_of_le_of_ne (surface_le_one hlib a b) fun hone => h.2.2 ?_
  have hflat : flatText lib a = flatText lib b := htext.strict _ _ hone
  have hnumbers : ∀ s, numbersIn lib (flatText lib s) = numbersIn lib s := fun s =>
    (numbersIn_join_words htext _).trans (numbersIn_lower htext s)
  rw [← hnumbers a, hflat, hnumbers b]
  exact ⟨List.Subset.refl _, List.Subset.refl _⟩

/-- **When the measure does what it is for**: exactly when, with numbers only partly different,
the words of neither answer are all in the other, and the wording differs, as it then does under
the further laws of texts. -/
theorem agreement_sound_iff (a b : Str) :
    (AgreementSound lib a b ↔ (DifferentNumbers lib a b → ¬ DisjointNumbers lib a b →
      surface lib a b < 1 ∧ ¬ WordsNested lib a b)) ∧
    (lib.TextLaws → (AgreementSound lib a b ↔
      (DifferentNumbers lib a b → ¬ DisjointNumbers lib a b → ¬ WordsNested lib a b))) := by
  have hiff : AgreementSound lib a b ↔ (DifferentNumbers lib a b → ¬ DisjointNumbers lib a b →
      surface lib a b < 1 ∧ ¬ WordsNested lib a b) := by
    constructor
    · exact fun h hdiff hdis => (agreement_lt_one_iff hdiff hdis).mp (h.differ hdiff)
    · intro h
      refine ⟨agreement_nonneg hlib a b, agreement_le_one hlib a b, agreement_self hlib a, ?_, ?_⟩
      · intro hdiff
        by_cases hdis : DisjointNumbers lib a b
        · rw [agreement_of_disjoint hdis]
          exact (min_le_right _ _).trans_lt (by norm_num)
        · exact (agreement_lt_one_iff hdiff hdis).mpr (h hdiff hdis)
      · intro hdis
        rw [agreement_of_disjoint hdis]
        exact min_le_right _ _
  refine ⟨hiff, fun htext => hiff.trans ⟨fun h hdiff hdis => (h hdiff hdis).2, ?_⟩⟩
  intro h hdiff hdis
  exact ⟨surface_lt_one hlib htext hdiff, h hdiff hdis⟩

end Laws

/-! ## Two reports -/

/-- The standard library on the reports below. -/
def reportLib : StdLib where
  lower s := s.map Char.toLower
  decimal c := if c.isDigit then some (c.toNat - 48) else none
  ratio a b := if a = b then 1 else if a.take 6 = b.take 6 then 23 / 24 else 34 / 47
  exp q := if q = 0 then 1 else 0
  floatRepr _ := "0.0".toList
  strRepr s := ['\''] ++ s ++ ['\'']

theorem ratioLaws_reportLib : reportLib.RatioLaws where
  nonneg a b := by
    simp only [reportLib]
    split_ifs <;> norm_num
  le_one a b := by
    simp only [reportLib]
    split_ifs <;> norm_num
  self a := by simp [reportLib]

theorem isDecimal_reportLib {c : Char} (h : reportLib.isDecimal c = true) :
    48 ≤ c.toNat ∧ c.toNat ≤ 57 := by
  by_cases hc : c.isDigit = true
  · simpa [Char.isDigit, UInt32.le_iff_toNat_le] using hc
  · simp [StdLib.isDecimal, reportLib, hc] at h

theorem isNumeric_reportLib {c : Char} (h : 58 ≤ c.toNat) : reportLib.isNumeric c = false := by
  rw [Bool.eq_false_iff]
  intro hnum
  simp only [StdLib.isNumeric, Bool.or_eq_true, decide_eq_true_eq] at hnum
  rcases hnum with ((hdec | rfl) | rfl) | rfl
  · have := (isDecimal_reportLib hdec).2
    omega
  all_goals exact absurd h (by decide)

/-- Lower case changes letters to letters. -/
theorem isNumeric_toLower (c : Char) :
    c.toLower = c ∨ reportLib.isNumeric c = false ∧ reportLib.isNumeric c.toLower = false := by
  by_cases h : c.val ≥ 'A'.val ∧ c.val ≤ 'Z'.val
  · have hlow : 65 ≤ c.toNat := by simpa [UInt32.le_iff_toNat_le] using h.1
    have hhigh : c.toNat ≤ 90 := by simpa [UInt32.le_iff_toNat_le] using h.2
    have hlower : c.toLower.toNat = c.toNat + 32 := by
      have hdiff : ('a'.val - 'A'.val).toNat = 32 := by decide
      have hval : c.toLower.val = c.val + ('a'.val - 'A'.val) := congrArg Char.val (dif_pos h)
      change c.toLower.val.toNat = c.val.toNat + 32
      change c.val.toNat ≤ 90 at hhigh
      rw [hval, UInt32.toNat_add]
      omega
    exact .inr ⟨isNumeric_reportLib (by omega), isNumeric_reportLib (by omega)⟩
  · exact .inl (dif_neg h)

theorem textLaws_reportLib : reportLib.TextLaws where
  strict a b h := by
    simp only [reportLib] at h
    split_ifs at h with hab
    · exact hab
    · norm_num at h
    · norm_num at h
  space c hc := by
    rw [Bool.eq_false_iff]
    intro hdec
    obtain ⟨hlow, hhigh⟩ := isDecimal_reportLib hdec
    simp only [isSpace, Bool.or_eq_true, Bool.and_eq_true, decide_eq_true_eq, beq_iff_eq] at hc
    omega
  lower s := by
    refine ⟨s.map fun c => [c.toLower], ?_, ?_⟩
    · induction s with
      | nil => rfl
      | cons c s ih => exact congrArg (c.toLower :: ·) ih
    · induction s with
      | nil => exact .nil
      | cons c s ih =>
          refine .cons ?_ ih
          rcases isNumeric_toLower c with h | ⟨h, h'⟩
          · exact .inl (congrArg (fun d => [d]) h)
          · exact .inr ⟨h, List.cons_ne_nil _ _, by simpa using h'⟩

/-- Two reports of the same words and different numbers count as the same. -/
theorem agreement_unsound_reports : reportLib.RatioLaws ∧
    ¬ AgreementSound reportLib "Revenue was 1000 in 2023".toList
      "Revenue was 2000 in 2023".toList := by
  refine ⟨ratioLaws_reportLib, fun h => ?_⟩
  have hone : agreement reportLib "Revenue was 1000 in 2023".toList
      "Revenue was 2000 in 2023".toList = 1 := by decide +kernel
  have hlt := h.differ (by unfold DifferentNumbers; decide +kernel)
  rw [hone] at hlt
  exact absurd hlt (lt_irrefl 1)

theorem agreement_sound_reports :
    AgreementSound reportLib "Revenue was 1000 in 2023".toList "Profit was 1000 in 2024".toList :=
  ((agreement_sound_iff ratioLaws_reportLib _ _).2 textLaws_reportLib).mpr fun _ _ => by
    unfold WordsNested
    decide +kernel

end HorizonRelay
