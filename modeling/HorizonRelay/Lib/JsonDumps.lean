import HorizonRelay.Lib.JsonGrammar

/-!
# Writing JSON texts

`json.dumps` without escapes for characters that need none.  What it writes is a text of the
grammar, so the reader finds its characters and integers again.

## Main definitions

* `dumpsChar` — how a character of a string is written.
* `dumpsWith`, `dumps` — the text of a value.

## Main results

* `char_dumpsChar`, `exists_ofInt` — a character and an integer are spelled.
-/

namespace Py.JsonText

/-! ## Strings -/

/-- The four digits of a control character's escape. -/
def controlDigits (n : ℕ) : Str := ['0', '0', Nat.digitChar (n / 16), Nat.digitChar (n % 16)]

theorem hex4_controlDigits : ∀ n < 32, hex4 (controlDigits n) = some (n, []) := by
  decide

theorem toNat_lt_of_lt_space {c : Char} (h : c < ' ') : c.toNat < 32 := h

/-- The letter that stands for a character after a backslash. -/
def escapeLetter : Char → Option Char
  | '"' => some '"'
  | '\\' => some '\\'
  | '\n' => some 'n'
  | '\r' => some 'r'
  | '\t' => some 't'
  | '\x0c' => some 'f'
  | '\x08' => some 'b'
  | _ => none

theorem letterEscape_of_escapeLetter {c l : Char} (h : escapeLetter c = some l) :
    letterEscape l = some c := by
  unfold escapeLetter at h
  split at h <;> cases h <;> rfl

/-- A character of a string, as `json.dumps(value, ensure_ascii=False)` writes it. -/
def dumpsChar (c : Char) : StrChar :=
  match h : escapeLetter c with
  | some l => .letter l c (letterEscape_of_escapeLetter h)
  | none =>
      if hc : c < ' ' then
        .code (controlDigits c.toNat) c.toNat (hex4_controlDigits _ (toNat_lt_of_lt_space hc)) (by
          have hlow := toNat_lt_of_lt_space hc
          simp only [isHigh, isLow, Bool.and_eq_false_iff, decide_eq_false_iff_not]
          omega)
      else .raw c ⟨hc, (by rintro rfl; cases h), (by rintro rfl; cases h)⟩

theorem char_dumpsChar (c : Char) : (dumpsChar c).char = c := by
  unfold dumpsChar
  repeat' split
  all_goals first | rfl | exact Char.ofNat_toNat c

/-- The characters that are not written as they are. -/
def Escaped (c : Char) : Prop := c < ' ' ∨ c = '"' ∨ c = '\\'

theorem escaped_of_escapeLetter {c l : Char} (h : escapeLetter c = some l) :
    Escaped c ∧ l ≠ '<' ∧ l ≠ '-' := by
  unfold escapeLetter at h
  split at h <;> cases h <;> exact ⟨by unfold Escaped; decide, by decide, by decide⟩

/-- A character stands as it is, or its escape has none of the marks of a page. -/
theorem text_dumpsChar (c : Char) : ¬ Escaped c ∧ (dumpsChar c).text = [c] ∨
    Escaped c ∧ ∃ r, (dumpsChar c).text = '\\' :: r ∧ ∀ e ∈ r, e ≠ '<' ∧ e ≠ '-' := by
  have hdigits : ∀ n < 32, ('u' :: controlDigits n).all (fun e => e ≠ '<' ∧ e ≠ '-') = true := by
    decide
  unfold dumpsChar
  split
  · rename_i l hl
    obtain ⟨hc, hmarks⟩ := escaped_of_escapeLetter hl
    refine .inr ⟨hc, [l], rfl, fun e he => ?_⟩
    obtain rfl : e = l := by simpa using he
    exact hmarks
  · rename_i hnone
    split
    · rename_i hc
      refine .inr ⟨.inl hc, 'u' :: controlDigits c.toNat, rfl, fun e he => ?_⟩
      exact of_decide_eq_true (List.all_eq_true.mp (hdigits _ (toNat_lt_of_lt_space hc)) e he)
    · rename_i hc
      refine .inl ⟨?_, rfl⟩
      rintro (h | rfl | rfl)
      · exact hc h
      · cases hnone
      · cases hnone

theorem text_dumpsChar_of_not {c : Char} (h : ¬ Escaped c) : (dumpsChar c).text = [c] := by
  rcases text_dumpsChar c with ⟨-, htext⟩ | ⟨hc, -⟩
  · exact htext
  · exact absurd hc h

theorem not_escaped {c : Char} (h : ¬ c < ' ' ∧ c ≠ '"' ∧ c ≠ '\\') : ¬ Escaped c := by
  rintro (hc | hc | hc)
  · exact h.1 hc
  · exact h.2.1 hc
  · exact h.2.2 hc

/-! ## Integers -/

theorem isDigit_toDigits {n : ℕ} : ∀ c ∈ Nat.toDigits 10 n, isDigit c = true := by
  intro c hc
  have h := Nat.isDigit_of_mem_toDigits (by decide) (by decide) hc
  have hbounds : '0' ≤ c ∧ c ≤ '9' := by
    simp only [Char.isDigit, ge_iff_le, Bool.and_eq_true, decide_eq_true_eq] at h
    exact h
  simpa [isDigit] using hbounds

theorem natOf_toDigits (n : ℕ) : natOf (Nat.toDigits 10 n) = n :=
  Nat.ofDigitChars_ten_toDigits

/-- The digits of a number that is not zero do not begin with a zero. -/
theorem toDigits_head {n : ℕ} (h : n ≠ 0) :
    ∃ c ds, Nat.toDigits 10 n = c :: ds ∧ c ≠ '0' := by
  induction n using Nat.strongRecOn with
  | ind n ih =>
      by_cases hlt : n < 10
      · refine ⟨n.digitChar, [], Nat.toDigits_of_lt_base hlt, ?_⟩
        simpa using h
      · obtain ⟨c, ds, hds, hc⟩ := ih (n / 10) (by omega) (by omega)
        refine ⟨c, ds ++ [(n % 10).digitChar], ?_, hc⟩
        rw [Nat.toDigits_of_base_le (by decide) (by omega), hds]
        rfl

/-- A natural number as it is spelled, with or without a sign. -/
def spelledNat (neg : Bool) (n : ℕ) : Number where
  neg := neg
  whole := Nat.toDigits 10 n
  fraction := []
  exponent := none
  whole_mem := by
    by_cases h : n = 0
    · subst h
      exact .inl (Nat.toDigits_zero 10)
    · exact .inr (toDigits_head h)
  whole_all := isDigit_toDigits
  fraction_all := by simp

/-- An integer is spelled. -/
theorem exists_ofInt (n : ℤ) : ∃ k : Number, Str.ofInt n = k.text ∧ k.parts.json = .int n := by
  cases n with
  | ofNat n =>
      refine ⟨spelledNat false n, ?_, ?_⟩
      · simp [Str.ofInt, Str.ofNat, Number.text, Number.unsigned, Number.mantissaText, spelledNat]
      · simp [Number.parts, Parts.json, spelledNat, natOf_toDigits]
  | negSucc n =>
      refine ⟨spelledNat true (n + 1), ?_, ?_⟩
      · simp [Str.ofInt, Str.ofNat, Number.text, Number.unsigned, Number.mantissaText, spelledNat]
      · simp [Number.parts, Parts.json, spelledNat, natOf_toDigits, Int.negSucc_eq]

/-! ## Values -/

section Dumps
variable (lib : StdLib)

/-- The text of a float. -/
def floatText : PyFloat → Str
  | .nan => "NaN".toList
  | .posInf => "Infinity".toList
  | .negInf => "-Infinity".toList
  | .fin q => lib.floatRepr (.fin q)

theorem floatText_fin (q : ℚ) : floatText lib (.fin q) = lib.floatRepr (.fin q) := rfl

mutual

/-- The text of a value, for a way to write strings. -/
def dumpsWith (spell : Str → List StrChar) : Json → Str
  | .null => "null".toList
  | .bool b => if b then "true".toList else "false".toList
  | .int n => Str.ofInt n
  | .float x => floatText lib x
  | .str s => quoted (spell s)
  | .arr [] => ['[', ']']
  | .arr (v :: vs) => '[' :: (dumpsWith spell v ++ (dumpsItems spell vs ++ [']']))
  | .obj [] => ['{', '}']
  | .obj ((k, v) :: fs) =>
      '{' :: (memberText (spell k) [] [' '] (dumpsWith spell v) ++ (dumpsMembers spell fs ++ ['}']))

/-- The items of a list after the first one, each behind its comma. -/
def dumpsItems (spell : Str → List StrChar) : List Json → Str
  | [] => []
  | v :: vs => ',' :: ' ' :: (dumpsWith spell v ++ dumpsItems spell vs)

def dumpsMembers (spell : Str → List StrChar) : List (Str × Json) → Str
  | [] => []
  | (k, v) :: fs =>
      ',' :: ' ' :: (memberText (spell k) [] [' '] (dumpsWith spell v) ++ dumpsMembers spell fs)

end

/-- `json.dumps(value, ensure_ascii=False)`. -/
def dumps (v : Json) : Str := dumpsWith lib (fun s => s.map dumpsChar) v

end Dumps

end Py.JsonText
