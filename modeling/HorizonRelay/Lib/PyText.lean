import Mathlib.Data.List.DropRight
import Mathlib.Data.List.Infix
import Mathlib.Data.List.TakeWhile
import Mathlib.Data.Rat.Floor
import Mathlib.Tactic.Linarith
import Mathlib.Tactic.Positivity

/-!
# Text and numbers as Python has them

A Python string is a list of code points.  The operations here are the ones of `str` a
program leans on, with Python's own edge cases: what counts as white space, how `count`
skips over a match, where `partition` and `split` differ.

## Main definitions

* `Str` — strings.
* `Str.strip`, `Str.contains`, `Str.count`, `Str.partition`, `Str.join`.
* `roundHalfEven`, `roundTo` — Python's `round`.
* `fmt2` — the format `.2f`.
-/

namespace Py

/-- A Python string. -/
abbrev Str := List Char

/-- `str.isspace` on one character; `\s` in a regular expression agrees. -/
def isSpace (c : Char) : Bool :=
  let n := c.toNat
  (0x09 ≤ n && n ≤ 0x0d) || (0x1c ≤ n && n ≤ 0x20) || n == 0x85 || n == 0xa0 || n == 0x1680 ||
    (0x2000 ≤ n && n ≤ 0x200a) || n == 0x2028 || n == 0x2029 || n == 0x202f || n == 0x205f ||
    n == 0x3000

namespace Str

/-- `s.lstrip()`. -/
def lstrip (s : Str) : Str := s.dropWhile isSpace

/-- `s.rstrip()`. -/
def rstrip (s : Str) : Str := s.reverse.dropWhile isSpace |>.reverse

/-- `s.strip()`. -/
def strip (s : Str) : Str := s.lstrip.rstrip

/-- `sub in s`. -/
def contains (s sub : Str) : Bool := s.tails.any sub.isPrefixOf

/-- `s.count(sub)` for a nonempty `sub`: matches do not overlap. -/
def count (s : Str) (sub : Str) : ℕ :=
  go s.length s
where
  go : ℕ → Str → ℕ
  | 0, _ => 0
  | _, [] => 0
  | n + 1, c :: rest =>
      if sub.isPrefixOf (c :: rest) then go n ((c :: rest).drop sub.length) + 1 else go n rest

/-- `s.partition(sep)` for a one-character separator: what stands before the first
separator, whether there is one, and what stands after it. -/
def partition (s : Str) (sep : Char) : Str × Bool × Str :=
  match s.dropWhile (· != sep) with
  | [] => (s, false, [])
  | _ :: rest => (s.takeWhile (· != sep), true, rest)

/-- `s.split(sep, 1)` for a one-character separator: the pieces, one or two. -/
def split1 (s : Str) (sep : Char) : List Str :=
  match s.partition sep with
  | (_, false, _) => [s]
  | (before, true, after) => [before, after]

/-- `partition` finds a separator that is there. -/
theorem partition_found (s : Str) (sep : Char) : (s.partition sep).2.1 = true ↔ sep ∈ s := by
  unfold partition
  cases h : s.dropWhile (· != sep) with
  | nil =>
      have hall := List.dropWhile_eq_nil_iff.mp h
      simp only [Bool.false_eq_true, false_iff]
      intro hmem
      simpa using hall sep hmem
  | cons c rest =>
      simp only [true_iff]
      have hc : (c != sep) = false := by
        have := List.head?_dropWhile_not (· != sep) s
        simpa [h] using this
      have hmem : c ∈ s := (List.dropWhile_sublist _).subset (h ▸ List.mem_cons_self)
      simpa using (by simpa using hc : c = sep) ▸ hmem

/-- Nothing is left of white space. -/
theorem strip_eq_nil_iff {s : Str} : s.strip = [] ↔ ∀ c ∈ s, isSpace c = true := by
  have hr : ∀ t : Str, t.rstrip = [] ↔ ∀ c ∈ t, isSpace c = true := by
    intro t
    rw [rstrip, List.reverse_eq_nil_iff, List.dropWhile_eq_nil_iff]
    simp
  rw [strip, hr]
  constructor
  · intro h c hc
    rw [← List.takeWhile_append_dropWhile (p := isSpace) (l := s)] at hc
    rcases List.mem_append.mp hc with hc | hc
    · exact List.mem_takeWhile_imp hc
    · exact h c hc
  · exact fun h c hc => h c ((List.dropWhile_sublist _).subset hc)

/-- White space at the end makes no difference. -/
theorem strip_append_space {s w : Str} (hw : ∀ c ∈ w, isSpace c = true) :
    Str.strip (s ++ w) = s.strip := by
  have hlw : w.lstrip = [] := List.dropWhile_eq_nil_iff.mpr hw
  have hr : ∀ t : Str, Str.rstrip (t ++ w) = t.rstrip := by
    intro t
    unfold rstrip
    rw [List.reverse_append, List.dropWhile_append_of_pos]
    exact fun c hc => hw c (List.mem_reverse.mp hc)
  unfold strip lstrip
  rw [List.dropWhile_append]
  split
  · rename_i h
    rw [List.isEmpty_iff.mp h]
    exact congrArg rstrip hlw
  · exact hr _

/-- White space at the front makes no difference. -/
theorem strip_cons_space {c : Char} (hc : isSpace c = true) (s : Str) :
    Str.strip (c :: s) = s.strip := by
  unfold strip lstrip
  rw [List.dropWhile_cons_of_pos hc]

/-- Nothing is stripped off a text whose ends are no white space. -/
theorem strip_append {s t : Str} (hs : (s.head?.map isSpace) = some false) (ht : t ≠ [])
    (hstrip : t.strip = t) : Str.strip (s ++ t) = s ++ t := by
  have hl : Str.lstrip (s ++ t) = s ++ t := by
    cases s with
    | nil => cases hs
    | cons c s =>
        refine List.dropWhile_cons_of_neg ?_
        simpa using hs
  have hr : t.rstrip = t := by
    have hidem : t.strip.rstrip = t.strip := List.rdropWhile_idempotent isSpace t.lstrip
    rwa [hstrip] at hidem
  have hne : (t.reverse.dropWhile isSpace).isEmpty = false := by
    have hrev : t.reverse.dropWhile isSpace = t.reverse := List.reverse_injective (by
      rw [List.reverse_reverse]
      exact hr)
    simpa [hrev] using ht
  rw [strip, hl, rstrip, List.reverse_append, List.dropWhile_append, hne]
  simp only [Bool.false_eq_true, if_false, List.reverse_append, List.reverse_reverse]
  exact congrArg (s ++ ·) hr

theorem length_strip_le (s : Str) : s.strip.length ≤ s.length := by
  have hl : s.lstrip.length ≤ s.length := (List.dropWhile_sublist isSpace).length_le
  have hr : (s.lstrip.reverse.dropWhile isSpace).length ≤ s.lstrip.reverse.length :=
    (List.dropWhile_sublist isSpace).length_le
  rw [List.length_reverse] at hr
  rw [strip, rstrip, List.length_reverse]
  exact hr.trans hl

@[simp] theorem strip_strip (s : Str) : s.strip.strip = s.strip := by
  -- what is stripped off the end of `s.lstrip` is white space
  have hsplit : s.strip ++ s.lstrip.rtakeWhile isSpace = s.lstrip :=
    List.rdropWhile_append_rtakeWhile
  have hblank : ∀ c ∈ s.lstrip.rtakeWhile isSpace, isSpace c = true :=
    fun c hc => List.mem_rtakeWhile_imp hc
  have hl : s.lstrip.lstrip = s.lstrip := List.dropWhile_idempotent isSpace s
  have hstrip : s.lstrip.strip = s.strip := congrArg rstrip hl
  rw [← hsplit, strip_append_space hblank] at hstrip
  exact hstrip

/-- Stripping takes away white space only. -/
theorem count_lstrip {c : Char} (hc : isSpace c = false) (s : Str) :
    List.count c s.lstrip = List.count c s := by
  have hnone : List.count c (s.takeWhile isSpace) = 0 := by
    rw [List.count_eq_zero]
    intro h
    rw [List.mem_takeWhile_imp h] at hc
    cases hc
  have hsplit := List.takeWhile_append_dropWhile (p := isSpace) (l := s)
  have h := congrArg (List.count c) hsplit
  rw [List.count_append, hnone, zero_add] at h
  exact h

theorem count_strip {c : Char} (hc : isSpace c = false) (s : Str) :
    List.count c s.strip = List.count c s := by
  unfold strip rstrip
  rw [List.count_reverse]
  exact (count_lstrip hc _).trans ((List.count_reverse).trans (count_lstrip hc s))

/-- What a text contains is made of its characters. -/
theorem subset_of_contains {s sub : Str} (h : s.contains sub = true) : sub ⊆ s := by
  obtain ⟨t, ht, hpre⟩ := List.any_eq_true.mp h
  have hsuf : t <:+ s := (List.mem_tails _ _).mp ht
  exact fun c hc => hsuf.subset ((List.isPrefixOf_iff_prefix.mp hpre).subset hc)

theorem contains_self (s : Str) : s.contains s = true :=
  List.any_eq_true.mpr ⟨s, (List.mem_tails _ _).mpr List.suffix_rfl,
    List.isPrefixOf_iff_prefix.mpr List.prefix_rfl⟩

/-- `s.split()`: the words between runs of white space. -/
def words (s : Str) : List Str :=
  (s.splitBy fun a b => isSpace a == isSpace b).filter fun w => !w.all isSpace

/-- `sep.join(parts)`. -/
def join (sep : Str) (parts : List Str) : Str := sep.intercalate parts

/-- Decimal digits of a natural number. -/
def ofNat (n : ℕ) : Str := Nat.toDigits 10 n

/-- `str` of an integer. -/
def ofInt : ℤ → Str
  | .ofNat n => ofNat n
  | .negSucc n => '-' :: ofNat (n + 1)

end Str

/-! ## Rounding -/

/-- Python's `round` to an integer: ties go to the even neighbour. -/
def roundHalfEven (q : ℚ) : ℤ :=
  let low := ⌊q⌋
  if q - low < 1 / 2 then low
  else if 1 / 2 < q - low then low + 1
  else if low % 2 = 0 then low else low + 1

/-- `round(q, digits)`. -/
def roundTo (digits : ℕ) (q : ℚ) : ℚ := roundHalfEven (q * 10 ^ digits) / 10 ^ digits

/-- Rounding goes to one of the two neighbours, and down only from the lower half. -/
theorem roundHalfEven_cases (q : ℚ) :
    roundHalfEven q = ⌊q⌋ ∧ q - ⌊q⌋ ≤ 1 / 2 ∨
      roundHalfEven q = ⌊q⌋ + 1 ∧ 1 / 2 ≤ q - ⌊q⌋ := by
  unfold roundHalfEven
  simp only
  split
  · rename_i h
    exact .inl ⟨rfl, h.le⟩
  · rename_i h
    split
    · rename_i h'
      exact .inr ⟨rfl, h'.le⟩
    · rename_i h'
      split
      · exact .inl ⟨rfl, not_lt.mp h'⟩
      · exact .inr ⟨rfl, not_lt.mp h⟩

/-- Rounding adds at most a half. -/
theorem roundHalfEven_le (q : ℚ) : (roundHalfEven q : ℚ) ≤ q + 1 / 2 := by
  rcases roundHalfEven_cases q with ⟨hr, -⟩ | ⟨hr, hle⟩
  · rw [hr]
    linarith [Int.floor_le q]
  · rw [hr]
    push_cast
    linarith

/-- Rounding takes at most a half. -/
theorem le_roundHalfEven (q : ℚ) : q ≤ (roundHalfEven q : ℚ) + 1 / 2 := by
  rcases roundHalfEven_cases q with ⟨hr, hle⟩ | ⟨hr, -⟩
  · rw [hr]
    linarith
  · rw [hr]
    push_cast
    linarith [Int.lt_floor_add_one q]

theorem roundHalfEven_mono {q r : ℚ} (h : q ≤ r) : roundHalfEven q ≤ roundHalfEven r := by
  have hfloor : ⌊q⌋ ≤ ⌊r⌋ := Int.floor_le_floor h
  rcases hfloor.lt_or_eq with hlt | heq
  · -- the upper neighbour of `q` is at most the lower one of `r`
    rcases roundHalfEven_cases q with ⟨hq, -⟩ | ⟨hq, -⟩ <;>
      rcases roundHalfEven_cases r with ⟨hr, -⟩ | ⟨hr, -⟩ <;> omega
  · rcases roundHalfEven_cases q with ⟨hq, -⟩ | ⟨hq, hq'⟩
    · rcases roundHalfEven_cases r with ⟨hr, -⟩ | ⟨hr, -⟩ <;> omega
    · rcases roundHalfEven_cases r with ⟨hr, hr'⟩ | ⟨hr, -⟩
      · -- both stand in the middle, where the same neighbour is even
        have hle : (⌊q⌋ : ℚ) = ⌊r⌋ := by exact_mod_cast heq
        obtain rfl : q = r := by linarith
        exact le_rfl
      · omega

theorem roundHalfEven_intCast (n : ℤ) : roundHalfEven n = n := by
  simp [roundHalfEven]

theorem roundTo_mono {digits : ℕ} {q r : ℚ} (h : q ≤ r) : roundTo digits q ≤ roundTo digits r := by
  have hpos : (0 : ℚ) < 10 ^ digits := by positivity
  have hround := roundHalfEven_mono (mul_le_mul_of_nonneg_right h hpos.le)
  exact div_le_div_of_nonneg_right (by exact_mod_cast hround) hpos.le

@[simp] theorem roundTo_zero (digits : ℕ) : roundTo digits 0 = 0 := by
  have h := roundHalfEven_intCast 0
  rw [Int.cast_zero] at h
  rw [roundTo, zero_mul, h, Int.cast_zero, zero_div]

@[simp] theorem roundTo_one (digits : ℕ) : roundTo digits 1 = 1 := by
  have h := roundHalfEven_intCast (10 ^ digits)
  push_cast at h
  rw [roundTo, one_mul, h]
  push_cast
  exact div_self (by positivity)

/-- The format `.2f`. -/
def fmt2 (q : ℚ) : Str :=
  let n := roundHalfEven (q * 100)
  let cents := Str.ofNat (n.natAbs % 100)
  (if n < 0 then ['-'] else []) ++ Str.ofNat (n.natAbs / 100) ++ ['.'] ++
    (if cents.length < 2 then '0' :: cents else cents)

end Py
