import HorizonRelay.Lib.PyText
import Mathlib.Data.Int.Log

/-!
# Doubles

A float is a binary64 number: 53 binary digits at an exponent of its own.  A number that is
read from a text is rounded to the nearest of them, ties to the even neighbour.

## Main definitions

* `IsDouble` — the numbers a double can be.
* `lastPlace`, `roundDouble` — the unit a number is rounded to, and the result.

## Main results

* `roundDouble_le`, `le_roundDouble` — no double lies between a number and its rounding.
* `IsDouble.roundDouble_eq`, `isDouble_roundDouble` — doubles stay what they are, and what is
  not too large becomes one.
-/

namespace Py

/-- The numbers a double can be. -/
def IsDouble (q : ℚ) : Prop :=
  ∃ m e : ℤ, |m| < 2 ^ 53 ∧ -1074 ≤ e ∧ e ≤ 971 ∧ q = m * 2 ^ e

/-- The exponent of the last of a number's 53 binary digits; that of the smallest double when
there are fewer. -/
def lastPlace (q : ℚ) : ℤ := if q = 0 then -1074 else max (-1074) (Int.log 2 |q| - 52)

/-- The double nearest to a number, as long as there is one of its size. -/
def roundDouble (q : ℚ) : ℚ := roundHalfEven (q / 2 ^ lastPlace q) * 2 ^ lastPlace q

/-- The smallest magnitude that rounds to an infinity: half a unit above the largest double. -/
def floatBound : ℕ := 2 ^ 1024 - 2 ^ 970

private theorem two_zpow_pos (e : ℤ) : (0 : ℚ) < 2 ^ e := zpow_pos two_pos e

private theorem two_zpow_le {a b : ℤ} (h : a ≤ b) : (2 : ℚ) ^ a ≤ 2 ^ b :=
  zpow_le_zpow_right₀ one_le_two h

private theorem le_of_two_zpow_lt {a b : ℤ} (h : (2 : ℚ) ^ a < 2 ^ b) : a < b :=
  (zpow_lt_zpow_iff_right₀ one_lt_two).mp h

theorem le_lastPlace (q : ℚ) : -1074 ≤ lastPlace q := by
  unfold lastPlace
  split
  · exact le_rfl
  · exact le_max_left _ _

/-- A number has at most 53 digits before its last place. -/
theorem abs_lt_lastPlace (q : ℚ) : |q| < 2 ^ (lastPlace q + 53) := by
  unfold lastPlace
  split
  · rename_i h
    rw [h, abs_zero]
    exact two_zpow_pos _
  · have hlog : |q| < (2 : ℚ) ^ (Int.log 2 |q| + 1) := by
      exact_mod_cast Int.lt_zpow_succ_log_self one_lt_two |q|
    refine hlog.trans_le (two_zpow_le ?_)
    omega

/-- Where the last place is not the least one, a number has all 53 digits. -/
theorem le_abs_lastPlace {q : ℚ} (h : -1074 < lastPlace q) : 2 ^ (lastPlace q + 52) ≤ |q| := by
  unfold lastPlace at h ⊢
  split at h
  · exact absurd h (lt_irrefl _)
  · rename_i hne
    have hplace : max (-1074) (Int.log 2 |q| - 52) + 52 = Int.log 2 |q| := by omega
    rw [if_neg hne, hplace]
    exact_mod_cast Int.zpow_log_le_self one_lt_two (abs_pos.mpr hne)

/-- A multiple of the last place is not passed by rounding. -/
theorem roundDouble_le_of_multiple {q : ℚ} {n : ℤ} (h : q ≤ n * 2 ^ lastPlace q) :
    roundDouble q ≤ n * 2 ^ lastPlace q := by
  have hpos := two_zpow_pos (lastPlace q)
  have hround := roundHalfEven_mono ((div_le_iff₀ hpos).mpr h)
  rw [roundHalfEven_intCast] at hround
  exact mul_le_mul_of_nonneg_right (by exact_mod_cast hround) hpos.le

theorem le_roundDouble_of_multiple {q : ℚ} {n : ℤ} (h : n * 2 ^ lastPlace q ≤ q) :
    n * 2 ^ lastPlace q ≤ roundDouble q := by
  have hpos := two_zpow_pos (lastPlace q)
  have hround := roundHalfEven_mono ((le_div_iff₀ hpos).mpr h)
  rw [roundHalfEven_intCast] at hround
  exact mul_le_mul_of_nonneg_right (by exact_mod_cast hround) hpos.le

/-- A double is a multiple of another number's last place, or smaller than that number. -/
theorem IsDouble.multiple_or_lt {d : ℚ} (h : IsDouble d) (q : ℚ) :
    (∃ n : ℤ, d = n * 2 ^ lastPlace q) ∨
      -1074 < lastPlace q ∧ |d| < 2 ^ (lastPlace q + 52) := by
  obtain ⟨m, e, hm, hlow, -, rfl⟩ := h
  by_cases he : lastPlace q ≤ e
  · obtain ⟨k, hk⟩ := Int.eq_ofNat_of_zero_le (sub_nonneg.mpr he)
    refine .inl ⟨m * 2 ^ k, ?_⟩
    have hsum : e = k + lastPlace q := by omega
    rw [hsum, zpow_add₀ two_ne_zero, zpow_natCast]
    push_cast
    ring
  · rw [not_le] at he
    refine .inr ⟨by omega, ?_⟩
    have hm' : |(m : ℚ)| < 2 ^ (53 : ℤ) := by exact_mod_cast hm
    rw [abs_mul, abs_of_pos (two_zpow_pos e)]
    calc |(m : ℚ)| * 2 ^ e < 2 ^ (53 : ℤ) * 2 ^ e :=
          mul_lt_mul_of_pos_right hm' (two_zpow_pos e)
      _ = 2 ^ (53 + e) := (zpow_add₀ two_ne_zero 53 e).symm
      _ ≤ 2 ^ (lastPlace q + 52) := two_zpow_le (by omega)

private theorem fullPlace (e : ℤ) : (2 : ℚ) ^ (e + 52) = (2 ^ 52 : ℤ) * 2 ^ e := by
  rw [zpow_add₀ two_ne_zero, mul_comm]
  norm_num

/-- Rounding up stops at the doubles. -/
theorem roundDouble_le {q d : ℚ} (hd : IsDouble d) (h : q ≤ d) : roundDouble q ≤ d := by
  rcases hd.multiple_or_lt q with ⟨n, rfl⟩ | ⟨hplace, hlt⟩
  · exact roundDouble_le_of_multiple h
  · -- the number lies below all numbers of the double's size
    have habs := le_abs_lastPlace hplace
    obtain ⟨hlow, -⟩ := abs_lt.mp hlt
    have hneg : q ≤ ((-2 ^ 52 : ℤ) : ℚ) * 2 ^ lastPlace q := by
      rw [Int.cast_neg, neg_mul, ← fullPlace]
      rcases abs_choice q with hq | hq
      · rw [hq] at habs
        linarith [le_abs_self d]
      · linarith
    refine (roundDouble_le_of_multiple hneg).trans ?_
    rw [Int.cast_neg, neg_mul, ← fullPlace]
    exact hlow.le

/-- Rounding down stops at the doubles. -/
theorem le_roundDouble {q d : ℚ} (hd : IsDouble d) (h : d ≤ q) : d ≤ roundDouble q := by
  rcases hd.multiple_or_lt q with ⟨n, rfl⟩ | ⟨hplace, hlt⟩
  · exact le_roundDouble_of_multiple h
  · have habs := le_abs_lastPlace hplace
    obtain ⟨-, hhigh⟩ := abs_lt.mp hlt
    have hpos : ((2 ^ 52 : ℤ) : ℚ) * 2 ^ lastPlace q ≤ q := by
      rw [← fullPlace]
      rcases abs_choice q with hq | hq
      · linarith
      · rw [hq] at habs
        linarith [neg_abs_le d]
    refine le_trans ?_ (le_roundDouble_of_multiple hpos)
    rw [← fullPlace]
    exact hhigh.le

/-- Doubles stay what they are. -/
theorem IsDouble.roundDouble_eq {q : ℚ} (h : IsDouble q) : roundDouble q = q :=
  le_antisymm (roundDouble_le h le_rfl) (le_roundDouble h le_rfl)

theorem isDouble_intCast {n : ℤ} (h : |n| < 2 ^ 53) : IsDouble n :=
  ⟨n, 0, h, by decide, by decide, by simp⟩

@[simp] theorem isDouble_zero : IsDouble 0 := by
  exact_mod_cast isDouble_intCast (n := 0) (by decide)

@[simp] theorem isDouble_one : IsDouble 1 := by
  exact_mod_cast isDouble_intCast (n := 1) (by decide)

theorem floatBound_eq : (floatBound : ℚ) = (2 ^ 53 - 1 / 2) * 2 ^ (971 : ℤ) := by
  have hle : ∀ a b : ℕ, a ≤ b → 2 ^ a ≤ 2 ^ b := fun a b => Nat.pow_le_pow_right Nat.two_pos
  have htop : (2 : ℚ) ^ 1024 = 2 ^ 53 * 2 ^ 971 := by rw [← pow_add]
  have hhalf : (2 : ℚ) ^ 971 = 2 ^ 970 * 2 := pow_succ 2 970
  have hint : (2 : ℚ) ^ (971 : ℤ) = 2 ^ 971 := zpow_natCast 2 971
  rw [floatBound, Nat.cast_sub (hle 970 1024 (by decide)), Nat.cast_pow, Nat.cast_pow,
    Nat.cast_ofNat, hint, htop, hhalf]
  generalize (2 : ℚ) ^ 970 = x
  ring

/-- A double lies below what rounds to an infinity. -/
theorem IsDouble.abs_lt_bound {q : ℚ} (h : IsDouble q) : |q| < floatBound := by
  obtain ⟨m, e, hm, -, he, rfl⟩ := h
  have hm' : |(m : ℚ)| ≤ 2 ^ 53 - 1 := by
    have hint : |m| ≤ 2 ^ 53 - 1 := by omega
    exact_mod_cast hint
  rw [abs_mul, abs_of_pos (two_zpow_pos e), floatBound_eq]
  calc |(m : ℚ)| * 2 ^ e ≤ (2 ^ 53 - 1) * 2 ^ (971 : ℤ) :=
        mul_le_mul hm' (two_zpow_le he) (two_zpow_pos e).le (by norm_num)
    _ < (2 ^ 53 - 1 / 2) * 2 ^ (971 : ℤ) :=
        mul_lt_mul_of_pos_right (by norm_num) (two_zpow_pos 971)

theorem one_lt_floatBound : (1 : ℚ) < floatBound := by
  have h := isDouble_one.abs_lt_bound
  rwa [abs_one] at h

/-- What is not too large is rounded to a double. -/
theorem isDouble_roundDouble {q : ℚ} (h : |q| < floatBound) : IsDouble (roundDouble q) := by
  have hplace : lastPlace q ≤ 971 := by
    by_contra hlt
    rw [not_le] at hlt
    have habs := le_abs_lastPlace (by omega : -1074 < lastPlace q)
    rw [floatBound_eq] at h
    have h' : |q| < (2 : ℚ) ^ ((971 : ℤ) + 53) := by
      rw [zpow_add₀ two_ne_zero, mul_comm]
      refine h.trans_le (mul_le_mul_of_nonneg_right ?_ (two_zpow_pos 971).le)
      norm_num
    have := le_of_two_zpow_lt (habs.trans_lt h')
    omega
  have hpos := two_zpow_pos (lastPlace q)
  have hle : |roundHalfEven (q / 2 ^ lastPlace q)| ≤ 2 ^ 53 := by
    have hquot : |q / 2 ^ lastPlace q| ≤ ((2 ^ 53 : ℤ) : ℚ) := by
      rw [abs_div, abs_of_pos hpos, div_le_iff₀ hpos, mul_comm]
      have := (abs_lt_lastPlace q).le
      rw [zpow_add₀ two_ne_zero] at this
      exact_mod_cast this
    obtain ⟨hlow, hhigh⟩ := abs_le.mp hquot
    refine abs_le.mpr ⟨?_, ?_⟩
    · rw [← roundHalfEven_intCast (-2 ^ 53)]
      exact roundHalfEven_mono (by exact_mod_cast hlow)
    · rw [← roundHalfEven_intCast (2 ^ 53)]
      exact roundHalfEven_mono hhigh
  rcases hle.lt_or_eq with hlt | heq
  · exact ⟨_, _, hlt, le_lastPlace q, hplace, rfl⟩
  · -- a carry to one more digit: there is room for it below the bound
    have hroom : lastPlace q + 1 ≤ 971 := by
      by_contra hfull
      have htop : lastPlace q = 971 := by omega
      rw [htop] at heq
      have hquot : |q / 2 ^ (971 : ℤ)| < 2 ^ 53 - 1 / 2 := by
        rw [abs_div, abs_of_pos (two_zpow_pos 971), div_lt_iff₀ (two_zpow_pos 971)]
        rwa [floatBound_eq] at h
      generalize q / 2 ^ (971 : ℤ) = r at heq hquot
      obtain ⟨hlow, hhigh⟩ := abs_lt.mp hquot
      have hup : (roundHalfEven r : ℚ) < ((2 ^ 53 : ℤ) : ℚ) := by
        push_cast
        linarith [roundHalfEven_le r]
      have hdown : ((-2 ^ 53 : ℤ) : ℚ) < (roundHalfEven r : ℚ) := by
        push_cast
        linarith [le_roundHalfEven r]
      have hup' := Int.cast_lt.mp hup
      have hdown' := Int.cast_lt.mp hdown
      rcases abs_choice (roundHalfEven r) with hc | hc <;> omega
    have hcarry : ∀ n : ℤ, |n| = 2 ^ 53 → IsDouble (n * 2 ^ lastPlace q) := by
      intro n hn
      obtain ⟨k, hk, rfl⟩ : ∃ k : ℤ, |k| < 2 ^ 53 ∧ n = k * 2 := by
        rcases abs_choice n with hc | hc
        · exact ⟨2 ^ 52, by decide, by omega⟩
        · exact ⟨-2 ^ 52, by decide, by omega⟩
      refine ⟨k, lastPlace q + 1, hk, (le_lastPlace q).trans (by omega), hroom, ?_⟩
      rw [zpow_add₀ two_ne_zero, zpow_one]
      push_cast
      ring
    exact hcarry _ heq

end Py
