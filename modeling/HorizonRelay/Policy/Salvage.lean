import HorizonRelay.Policy.FieldSearch

/-!
# What the patterns make of strings and numbers

The pattern for the answer stops at its closing quote, and one replacement takes the
backslashes off its quotes.  The pattern for the confidence reads digits, a point and digits.

## Main results

* `unescapeQuotes_eq_iff` — when the replacement gives the text the string stands for.
* `quotedRun_bodyText`, `numberRun_pointed` — what the two patterns read.
* `readNumber_pointed`, `readNumber_json` — what becomes of a number that was found, and of
  one that was parsed.
-/

namespace HorizonRelay

open Py Py.JsonText

/-! ## The answer -/

/-- A character that stands as it is, or an escaped quote. -/
def isPlain : StrChar → Bool
  | .raw .. => true
  | .letter c .. => c = '"'
  | _ => false

theorem unescapeQuotes_cons {c : Char} {s : Str} (h : c ≠ '\\' ∨ ∀ d ∈ s.head?, d ≠ '"') :
    unescapeQuotes (c :: s) = c :: unescapeQuotes s := by
  rw [unescapeQuotes]
  intro rest hc hs
  subst hs
  rcases h with h | h
  · exact h hc
  · exact h '"' rfl rfl

theorem unescapeQuotes_append {s : Str} (hs : '\\' ∉ s) (t : Str) :
    unescapeQuotes (s ++ t) = s ++ unescapeQuotes t := by
  induction s with
  | nil => rfl
  | cons c s ih =>
      rw [List.mem_cons, not_or] at hs
      rw [List.cons_append, unescapeQuotes_cons (.inl (Ne.symm hs.1)), ih hs.2, List.cons_append]

/-- No string begins with a quote of its own. -/
theorem bodyText_head (cs : List StrChar) : ∀ c ∈ (bodyText cs).head?, c ≠ '"' := by
  intro c hc
  cases cs with
  | nil => cases hc
  | cons d cs =>
      cases d with
      | raw d h =>
          obtain rfl : d = c := by simpa [StrChar.text] using hc
          exact h.2.1
      | _ =>
          obtain rfl : '\\' = c := by simpa [StrChar.text] using hc
          decide

theorem unescapeQuotes_text (c : StrChar) {t : Str} (ht : ∀ d ∈ t.head?, d ≠ '"') :
    unescapeQuotes (c.text ++ t) =
      (if isPlain c then [c.char] else c.text) ++ unescapeQuotes t := by
  have hslash : hexDigit '\\' = none := by decide
  cases c with
  | raw c h => exact unescapeQuotes_cons (.inl h.2.2)
  | letter c d h =>
      by_cases hc : c = '"'
      · subst hc
        cases h
        rfl
      · have hplain : isPlain (.letter c d h) = false := by simpa [isPlain] using hc
        rw [hplain, StrChar.text, List.cons_append, List.cons_append, List.nil_append,
          unescapeQuotes_cons (.inr (by simpa using hc)), unescapeQuotes_cons (.inr ht)]
        rfl
  | code ds n h hn =>
      rw [StrChar.text, List.cons_append, List.cons_append,
        unescapeQuotes_cons (.inr (by simp)), unescapeQuotes_cons (.inl (by decide)),
        unescapeQuotes_append (not_mem_of_hex4 h hslash)]
      rfl
  | pair hs ls n m hh hl hn hm =>
      rw [StrChar.text, List.cons_append, List.cons_append, List.append_assoc, List.cons_append,
        List.cons_append,
        unescapeQuotes_cons (.inr (by simp)), unescapeQuotes_cons (.inl (by decide)),
        unescapeQuotes_append (not_mem_of_hex4 hh hslash),
        unescapeQuotes_cons (.inr (by simp)), List.cons_append,
        unescapeQuotes_cons (.inl (by decide)), unescapeQuotes_append (not_mem_of_hex4 hl hslash)]
      simp [isPlain]

/-- What the one replacement makes of a string: escapes but for quotes are left. -/
theorem unescapeQuotes_bodyText (cs : List StrChar) : unescapeQuotes (bodyText cs) =
    (cs.map fun c => if isPlain c then [c.char] else c.text).flatten := by
  induction cs with
  | nil => rfl
  | cons c cs ih =>
      rw [bodyText_cons, unescapeQuotes_text c (bodyText_head cs), ih, List.map_cons,
        List.flatten_cons]

theorem two_le_length_text {c : StrChar} (h : isPlain c = false) : 2 ≤ c.text.length := by
  cases c with
  | raw c h' => cases h
  | _ => simp [StrChar.text]

/-- The replacement gives the text a string stands for when no other escape is in it. -/
theorem unescapeQuotes_eq_iff (cs : List StrChar) :
    unescapeQuotes (bodyText cs) = bodyValue cs ↔ ∀ c ∈ cs, isPlain c = true := by
  rw [unescapeQuotes_bodyText]
  constructor
  · intro h
    have hlen := congrArg List.length h
    clear h
    have hle : ∀ ds : List StrChar, ds.length ≤
        ((ds.map fun c => if isPlain c then [c.char] else c.text).flatten).length := by
      intro ds
      induction ds with
      | nil => exact le_rfl
      | cons c ds ih =>
          have hc := c.length_text_pos
          rw [List.map_cons, List.flatten_cons, List.length_append, List.length_cons]
          split
          · rw [List.length_singleton]
            omega
          · omega
    induction cs with
    | nil => simp
    | cons c cs ih =>
        have hrest := hle cs
        rw [List.map_cons, List.flatten_cons, List.length_append, bodyValue, List.map_cons,
          List.length_cons, List.length_map] at hlen
        cases hc : isPlain c with
        | false =>
            have := two_le_length_text hc
            rw [hc, if_neg (by decide)] at hlen
            omega
        | true =>
            rw [hc, if_pos rfl, List.length_singleton] at hlen
            rw [List.forall_mem_cons]
            refine ⟨hc, ih ?_⟩
            rw [bodyValue, List.length_map]
            omega
  · intro h
    induction cs with
    | nil => rfl
    | cons c cs ih =>
        rw [List.forall_mem_cons] at h
        rw [List.map_cons, List.flatten_cons, h.1, if_pos rfl, ih h.2]
        rfl

theorem quotedRun_append {s : Str} (hs : '"' ∉ s ∧ '\\' ∉ s) (t : Str) :
    quotedRun (s ++ t) = (quotedRun t).map (s ++ ·) := by
  induction s with
  | nil => simp
  | cons c s ih =>
      simp only [List.mem_cons, not_or] at hs
      rw [List.cons_append, quotedRun, if_neg (Ne.symm hs.2.1), ih ⟨hs.1.2, hs.2.2⟩, Option.map_map]
      · rfl
      · exact fun h => absurd h.symm hs.1.1
      · exact fun d rest h _ => absurd h.symm hs.2.1

theorem quotedRun_escape {c : Char} (hc : c ≠ '\n') (t : Str) :
    quotedRun ('\\' :: c :: t) = (quotedRun t).map fun r => '\\' :: c :: r := by
  rw [quotedRun, if_neg hc]

/-- The pattern for a string stops at its closing quote. -/
theorem quotedRun_bodyText (cs : List StrChar) (r : Str) :
    quotedRun (bodyText cs ++ '"' :: r) = some (bodyText cs) := by
  have hquote : hexDigit '"' = none := by decide
  have hslash : hexDigit '\\' = none := by decide
  induction cs with
  | nil => rfl
  | cons c cs ih =>
      rw [bodyText_cons, List.append_assoc]
      cases c with
      | raw c h =>
          have hplain : '"' ∉ [c] ∧ '\\' ∉ [c] := by simp [h.2.1.symm, h.2.2.symm]
          rw [StrChar.text, quotedRun_append hplain, ih]
          rfl
      | letter c d h =>
          have hc : c ≠ '\n' := by
            rintro rfl
            cases h
          rw [StrChar.text, List.cons_append, List.cons_append, List.nil_append,
            quotedRun_escape hc, ih]
          rfl
      | code ds n h hn =>
          rw [StrChar.text, List.cons_append, List.cons_append, quotedRun_escape (by decide),
            quotedRun_append ⟨not_mem_of_hex4 h hquote, not_mem_of_hex4 h hslash⟩, ih]
          rfl
      | pair hs ls n m hh hl hn hm =>
          rw [StrChar.text, List.cons_append, List.cons_append, List.append_assoc,
            List.cons_append, List.cons_append, quotedRun_escape (by decide),
            quotedRun_append ⟨not_mem_of_hex4 hh hquote, not_mem_of_hex4 hh hslash⟩,
            List.cons_append, quotedRun_escape (by decide),
            quotedRun_append ⟨not_mem_of_hex4 hl hquote, not_mem_of_hex4 hl hslash⟩, ih]
          simp

/-! ## The confidence -/

/-- The digits of a number with a point before its fraction, if it has one. -/
def pointed (whole fraction : Str) : Str := whole ++ if fraction = [] then [] else '.' :: fraction

theorem mantissaText_eq (k : Number) : k.mantissaText = pointed k.whole k.fraction := rfl

/-- The digits after a point. -/
def pastPoint : Str → Str
  | '.' :: rest => rest.takeWhile isDigit
  | _ => []

theorem pastPoint_of_ne {s : Str} (h : ∀ c ∈ s.head?, c ≠ '.') : pastPoint s = [] := by
  unfold pastPoint
  split
  · exact absurd rfl (h '.' rfl)
  · rfl

theorem numberRun_eq (s : Str) : numberRun s =
    if pastPoint (s.dropWhile isDigit) ≠ [] then
      some (pointed (s.takeWhile isDigit) (pastPoint (s.dropWhile isDigit)))
    else if s.takeWhile isDigit ≠ [] then some (pointed (s.takeWhile isDigit) []) else none := by
  have hrun : numberRun s =
      if pastPoint (s.dropWhile isDigit) ≠ [] then
        some (s.takeWhile isDigit ++ '.' :: pastPoint (s.dropWhile isDigit))
      else if s.takeWhile isDigit ≠ [] then some (s.takeWhile isDigit) else none := rfl
  rw [hrun]
  by_cases h : pastPoint (s.dropWhile isDigit) = []
  · simp [h, pointed]
  · simp [h, pointed]

/-- The pattern for a number reads digits, a point and digits. -/
theorem numberRun_pointed {whole fraction r : Str} (hw : ∀ c ∈ whole, isDigit c = true)
    (hf : ∀ c ∈ fraction, isDigit c = true) (hne : whole ++ fraction ≠ [])
    (hr : ∀ c ∈ r.head?, isDigit c = false ∧ c ≠ '.') :
    numberRun (pointed whole fraction ++ r) = some (pointed whole fraction) := by
  have hrd : ∀ c ∈ r.head?, isDigit c = false := fun c hc => (hr c hc).1
  rw [numberRun_eq]
  by_cases hfr : fraction = []
  · obtain ⟨htake, hdrop⟩ := takeWhile_append_of_head hw hrd
    have hwne : whole ≠ [] := by simpa [hfr] using hne
    have hpast : pastPoint r = [] := pastPoint_of_ne fun c hc => (hr c hc).2
    subst hfr
    rw [pointed, if_pos rfl, List.append_nil, htake, hdrop, hpast]
    simp [hwne, pointed]
  · have hhead : ∀ c ∈ ('.' :: (fraction ++ r)).head?, isDigit c = false := by
      intro c hc
      obtain rfl : '.' = c := by simpa using hc
      decide
    obtain ⟨htake, hdrop⟩ := takeWhile_append_of_head hw hhead
    have hpast : pastPoint ('.' :: (fraction ++ r)) = fraction :=
      (takeWhile_append_of_head hf hrd).1
    have htext : pointed whole fraction ++ r = whole ++ '.' :: (fraction ++ r) := by
      simp [pointed, hfr]
    rw [htext, htake, hdrop, hpast, if_pos hfr]

/-- What the pattern for a number finds. -/
theorem numberRun_eq_some {s run : Str} (h : numberRun s = some run) :
    ∃ whole fraction, run = pointed whole fraction ∧ (∀ c ∈ whole, isDigit c = true) ∧
      (∀ c ∈ fraction, isDigit c = true) ∧ whole ++ fraction ≠ [] := by
  have hw : ∀ c ∈ s.takeWhile isDigit, isDigit c = true := fun c hc => List.mem_takeWhile_imp hc
  have hpast : ∀ t : Str, ∀ c ∈ pastPoint t, isDigit c = true := by
    intro t c hc
    unfold pastPoint at hc
    split at hc
    · exact List.mem_takeWhile_imp hc
    · cases hc
  rw [numberRun_eq] at h
  by_cases hf : pastPoint (s.dropWhile isDigit) = []
  · rw [if_neg (not_not.mpr hf)] at h
    by_cases hwhole : s.takeWhile isDigit = []
    · rw [if_neg (not_not.mpr hwhole)] at h
      cases h
    · rw [if_pos hwhole] at h
      exact ⟨_, [], (Option.some.inj h).symm, hw, by simp, by simpa using hwhole⟩
  · rw [if_pos hf] at h
    exact ⟨_, _, (Option.some.inj h).symm, hw, hpast _, List.append_ne_nil_of_right_ne_nil _ hf⟩

section Digits
variable {lib : StdLib}

theorem decimal_of_isDigit (hlib : lib.DigitLaws) {c : Char} (h : isDigit c = true) :
    lib.decimal c = some (c.toNat - 48) := by
  have h' : '0' ≤ c ∧ c ≤ '9' := by simpa [isDigit] using h
  have hlt : c.toNat < 128 := lt_of_le_of_lt (show c.toNat ≤ '9'.toNat from h'.2) (by decide)
  rw [hlib.ascii c hlt, if_pos h']

/-- A run of digits adds its value to what was read before. -/
theorem digitPart_digits (hlib : lib.DigitLaws) {ds r : Str} (hds : ∀ c ∈ ds, isDigit c = true)
    (hr : ∀ c ∈ r.head?, c = '.') (v n : ℕ) :
    Json.digitPart lib (ds ++ r) v n =
      (ds.foldl (fun n c => 10 * n + (c.toNat - 48)) v, n + ds.length, r) := by
  induction ds generalizing v n with
  | nil =>
      cases r with
      | nil => rfl
      | cons c r =>
          obtain rfl := hr c rfl
          have hpoint : lib.decimal '.' = none := hlib.ascii '.' (by decide)
          rw [List.nil_append, Json.digitPart, hpoint]
          rfl
  | cons c ds ih =>
      rw [List.forall_mem_cons] at hds
      rw [List.cons_append, Json.digitPart, decimal_of_isDigit hlib hds.1]
      simp only [ih hds.2, List.foldl_cons, List.length_cons]
      congr 2
      omega

theorem foldl_digits (ds : Str) (v : ℕ) :
    ds.foldl (fun n c => 10 * n + (c.toNat - 48)) v = v * 10 ^ ds.length + natOf ds := by
  induction ds generalizing v with
  | nil => simp [natOf]
  | cons c ds ih =>
      rw [natOf, List.foldl_cons, List.foldl_cons, ih, ih (10 * 0 + _), List.length_cons, pow_succ]
      ring

theorem natOf_append (ds es : Str) : natOf (ds ++ es) = natOf ds * 10 ^ es.length + natOf es := by
  rw [natOf, List.foldl_append, foldl_digits]
  rfl

/-- The digits, one by one. -/
theorem digit_cases {c : Char} (h : isDigit c = true) : c ∈ "0123456789".toList := by
  have h' : '0' ≤ c ∧ c ≤ '9' := by simpa [isDigit] using h
  have hlow : 48 ≤ c.toNat := h'.1
  have hhigh : c.toNat ≤ 57 := h'.2
  have hmem : ∀ k, 48 ≤ k → k ≤ 57 → Char.ofNat k ∈ "0123456789".toList := by decide
  have hc := hmem c.toNat hlow hhigh
  rwa [Char.ofNat_toNat] at hc

/-- What a number without a sign begins with. -/
theorem pointed_head {whole fraction : Str} (hw : ∀ c ∈ whole, isDigit c = true)
    (hne : whole ++ fraction ≠ []) :
    ∃ c t, pointed whole fraction = c :: t ∧ c ∈ ".0123456789".toList := by
  cases whole with
  | nil =>
      have hf : fraction ≠ [] := by simpa using hne
      exact ⟨'.', fraction, by simp [pointed, hf], by decide⟩
  | cons c whole =>
      rw [List.forall_mem_cons] at hw
      exact ⟨c, _, rfl, List.mem_cons_of_mem _ (digit_cases hw.1)⟩

theorem trim_of_no_space {s : Str} (h : ∀ c ∈ s, isSpace c = false) : Json.trim s = s := by
  have hid : ∀ t : Str, (∀ c ∈ t, isSpace c = false) → t.dropWhile Json.isFloatSpace = t := by
    intro t ht
    cases t with
    | nil => rfl
    | cons c t =>
        exact List.dropWhile_cons_of_neg (by simp [Json.isFloatSpace, ht c (by simp)])
  unfold Json.trim
  rw [hid s h, hid s.reverse fun c hc => h c (List.mem_reverse.mp hc), List.reverse_reverse]

theorem pointed_no_space {whole fraction : Str} (hw : ∀ c ∈ whole, isDigit c = true)
    (hf : ∀ c ∈ fraction, isDigit c = true) : ∀ c ∈ pointed whole fraction, isSpace c = false := by
  have hdigit : ∀ c, isDigit c = true → isSpace c = false := by
    have hall : "0123456789".toList.all (fun c => !isSpace c) = true := by decide
    intro c hc
    simpa using List.all_eq_true.mp hall c (digit_cases hc)
  intro c hc
  rw [pointed, List.mem_append] at hc
  rcases hc with hc | hc
  · exact hdigit c (hw c hc)
  · split at hc
    · cases hc
    · rcases List.mem_cons.mp hc with rfl | hc
      · decide
      · exact hdigit c (hf c hc)

theorem decimalNumber_pointed (hlib : lib.DigitLaws) {whole fraction : Str}
    (hw : ∀ c ∈ whole, isDigit c = true) (hf : ∀ c ∈ fraction, isDigit c = true)
    (hne : whole ++ fraction ≠ []) : Json.decimalNumber lib (pointed whole fraction) =
      some ((natOf (whole ++ fraction) : ℚ) / 10 ^ fraction.length) := by
  by_cases hfr : fraction = []
  · subst hfr
    have hwne : whole ≠ [] := by simpa using hne
    have hpart := digitPart_digits hlib (r := []) hw (by simp) 0 0
    rw [List.append_nil] at hpart
    have hlen : ¬ (0 + whole.length = 0) := by simpa using hwne
    unfold Json.decimalNumber pointed
    simp only [if_true, List.append_nil, hpart, if_neg hlen]
    simp [Json.exponent, natOf]
  · have hpart := digitPart_digits hlib (r := '.' :: fraction) hw (by simp) 0 0
    have hpart' := digitPart_digits hlib (r := []) hf (by simp) 0 0
    rw [List.append_nil] at hpart'
    have hlen : ¬ (0 + whole.length + (0 + fraction.length) = 0) := by
      have := List.length_pos_of_ne_nil hfr
      omega
    unfold Json.decimalNumber pointed
    simp only [if_neg hfr, hpart, hpart', if_neg hlen]
    rw [natOf_append]
    simp [Json.exponent, natOf]

theorem floatOfStr_pointed (hlib : lib.DigitLaws) {whole fraction : Str}
    (hw : ∀ c ∈ whole, isDigit c = true) (hf : ∀ c ∈ fraction, isDigit c = true)
    (hne : whole ++ fraction ≠ []) : Json.floatOfStr lib (pointed whole fraction) =
      some (Json.roundFloat ((natOf (whole ++ fraction) : ℚ) / 10 ^ fraction.length)) := by
  have hdec := decimalNumber_pointed hlib hw hf hne
  obtain ⟨c, t, hct, hc⟩ := pointed_head hw hne
  have htrim := trim_of_no_space (pointed_no_space hw hf)
  have hplain : ".0123456789".toList.all (fun c => c.toLower = c ∧ c ≠ '-' ∧ c ≠ '+' ∧ c ≠ 'i' ∧
      c ≠ 'n') = true := by
    decide
  obtain ⟨hlower, hminus, hplus, hi, hn⟩ := of_decide_eq_true (List.all_eq_true.mp hplain c hc)
  have hword : ∀ d w, d ≠ c → (c :: t).map Char.toLower ≠ d :: w := by
    intro d w hd h
    rw [List.map_cons, hlower, List.cons.injEq] at h
    exact hd h.1.symm
  unfold Json.floatOfStr
  rw [htrim]
  rw [hct] at hdec ⊢
  split
  rename_i neg body hbody
  split at hbody
  · rename_i heq
    exact absurd (List.cons.inj heq).1 hminus
  · rename_i heq
    exact absurd (List.cons.inj heq).1 hplus
  · cases hbody
    have hinf : ¬ ((c :: t).map Char.toLower = "inf".toList ∨
        (c :: t).map Char.toLower = "infinity".toList) := by
      rintro (h | h)
      · exact hword 'i' _ hi.symm h
      · exact hword 'i' _ hi.symm h
    have hnan : ¬ (c :: t).map Char.toLower = "nan".toList := hword 'n' _ hn.symm
    simp only [if_neg hinf, if_neg hnan, hdec]
    rfl

/-- What is too large for a float is clamped to one, as the double is. -/
theorem clampFloat_roundFloat (q : ℚ) :
    clampFloat (Json.roundFloat q) = clamp (roundDouble q) := by
  have hbound := one_lt_floatBound
  unfold Json.roundFloat
  split
  · rename_i h
    exact (clamp_of_one_le (le_roundDouble isDouble_one (hbound.le.trans h))).symm
  · split
    · rename_i h
      refine (clamp_of_nonpos (roundDouble_le isDouble_zero (h.trans ?_))).symm
      linarith
    · rfl

/-- A number that was found in a text. -/
theorem readNumber_pointed (hlib : lib.DigitLaws) (d : ℚ) {whole fraction : Str}
    (hw : ∀ c ∈ whole, isDigit c = true) (hf : ∀ c ∈ fraction, isDigit c = true)
    (hne : whole ++ fraction ≠ []) : readNumber lib d (.str (pointed whole fraction)) =
      .ok (clamp (roundDouble ((natOf (whole ++ fraction) : ℚ) / 10 ^ fraction.length))) := by
  rw [← clampFloat_roundFloat]
  simp only [readNumber, Json.toFloat, floatOfStr_pointed hlib hw hf hne]

/-- A number between zero and one is read as its double. -/
theorem readNumber_json (lib : StdLib) (d : ℚ) (k : Parts) (h : 0 ≤ k.number ∧ k.number ≤ 1) :
    readNumber lib d k.json = .ok (roundDouble k.number) := by
  have hround : clamp (roundDouble k.number) = roundDouble k.number :=
    clamp_of_mem ⟨le_roundDouble isDouble_zero h.1, roundDouble_le isDouble_one h.2⟩
  unfold Parts.json
  split
  · rename_i hint
    obtain ⟨hfr, hexp⟩ := hint
    generalize hn : (if k.neg = true then -(natOf k.whole : ℤ) else natOf k.whole) = n
    have hnumber : k.number = n := by
      rw [← hn]
      unfold Parts.number Parts.mantissa
      rw [hfr, hexp]
      cases k.neg <;> simp
    rw [hnumber] at h hround ⊢
    have hlow : 0 ≤ n := by exact_mod_cast h.1
    have hhigh : n ≤ 1 := by exact_mod_cast h.2
    have hsmall : ¬ floatBound ≤ n.natAbs := by
      have hbound : 1 < floatBound := by exact_mod_cast one_lt_floatBound
      omega
    simp only [readNumber, Json.toFloat, if_neg hsmall]
    exact congrArg Except.ok hround
  · simp only [readNumber, Json.toFloat, clampFloat_roundFloat, hround]

end Digits

end HorizonRelay
