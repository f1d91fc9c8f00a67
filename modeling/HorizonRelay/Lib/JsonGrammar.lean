import HorizonRelay.Lib.JsonText

/-!
# The grammar of JSON texts

How a value may be spelled: strings with any choice of escapes, numbers with any fraction
and exponent, white space between the parts.  The reader finds the value of every spelling.

## Main definitions

* `StrChar`, `Number` — one character of a string, and a number, as they are spelled.
* `plainText` — a text spelled as it is.
* `Spells` — a text spells a value, the items of a list, or the members of an object.
* `Gaps`, `Lists` — the white space around a member, and members between white space.

## Main results

* `stringBody_spelled`, `number_spelled` — what the readers find.
* `loads_of_spells` — the reader finds the value a text spells.
-/

namespace Py.JsonText

/-! ## Strings -/

/-- One character of a string as it is spelled. -/
inductive StrChar : Type
  | raw (c : Char) (h : ¬ c < ' ' ∧ c ≠ '"' ∧ c ≠ '\\')
  | letter (c d : Char) (h : letterEscape c = some d)
  | code (digits : Str) (n : ℕ) (h : hex4 digits = some (n, []))
      (hn : isHigh n = false ∧ isLow n = false)
  | pair (high low : Str) (n m : ℕ) (hh : hex4 high = some (n, [])) (hl : hex4 low = some (m, []))
      (hn : isHigh n = true) (hm : isLow m = true)

namespace StrChar

/-- How it is spelled. -/
def text : StrChar → Str
  | raw c _ => [c]
  | letter c _ _ => ['\\', c]
  | code digits _ _ _ => '\\' :: 'u' :: digits
  | pair high low .. => '\\' :: 'u' :: high ++ '\\' :: 'u' :: low

/-- What it stands for. -/
def char : StrChar → Char
  | raw c _ => c
  | letter _ d _ => d
  | code _ n _ _ => Char.ofNat n
  | pair _ _ n m .. => joined n m

end StrChar

/-- The text between the quotes. -/
def bodyText (cs : List StrChar) : Str := (cs.map StrChar.text).flatten

/-- The text a string stands for. -/
def bodyValue (cs : List StrChar) : Str := cs.map StrChar.char

/-- A string with its quotes. -/
def quoted (cs : List StrChar) : Str := '"' :: bodyText cs ++ ['"']

@[simp] theorem bodyText_nil : bodyText [] = [] := rfl

@[simp] theorem bodyText_cons (c : StrChar) (cs : List StrChar) :
    bodyText (c :: cs) = c.text ++ bodyText cs := rfl

@[simp] theorem bodyText_append (cs ds : List StrChar) :
    bodyText (cs ++ ds) = bodyText cs ++ bodyText ds := by
  simp [bodyText]

/-- A text of characters that stand as they are. -/
def plainText (s : Str) (h : ∀ c ∈ s, ¬ c < ' ' ∧ c ≠ '"' ∧ c ≠ '\\') : List StrChar :=
  s.pmap StrChar.raw h

@[simp] theorem bodyText_plainText (s : Str) (h : ∀ c ∈ s, ¬ c < ' ' ∧ c ≠ '"' ∧ c ≠ '\\') :
    bodyText (plainText s h) = s := by
  induction s with
  | nil => rfl
  | cons c s ih =>
      rw [List.forall_mem_cons] at h
      exact congrArg (c :: ·) (ih h.2)

@[simp] theorem bodyValue_plainText (s : Str) (h : ∀ c ∈ s, ¬ c < ' ' ∧ c ≠ '"' ∧ c ≠ '\\') :
    bodyValue (plainText s h) = s := by
  induction s with
  | nil => rfl
  | cons c s ih =>
      rw [List.forall_mem_cons] at h
      exact congrArg (c :: ·) (ih h.2)

theorem hex4_append {ds rest : Str} {n : ℕ} (h : hex4 ds = some (n, [])) :
    hex4 (ds ++ rest) = some (n, rest) := by
  match ds, h with
  | a :: b :: c :: d :: ds', h =>
      simp only [hex4, Option.bind_eq_bind, Option.bind_eq_some_iff, Option.pure_def,
        Option.some.injEq, Prod.mk.injEq] at h
      obtain ⟨a', ha, b', hb, c', hc, d', hd, rfl, rfl⟩ := h
      simp [hex4, ha, hb, hc, hd]

theorem StrChar.length_text_pos (c : StrChar) : 0 < c.text.length := by
  cases c <;> simp [text]

theorem length_le_bodyText (cs : List StrChar) : cs.length ≤ (bodyText cs).length := by
  induction cs with
  | nil => exact le_rfl
  | cons c cs ih =>
      have := c.length_text_pos
      rw [bodyText_cons, List.length_append, List.length_cons]
      omega

/-- An escape is read as the character it stands for. -/
theorem escaped_letter {c d : Char} (h : letterEscape c = some d) (rest : Str) :
    escaped (c :: rest) = some (d, rest) := by
  have hu : c ≠ 'u' := by
    rintro rfl
    cases h
  simp [escaped, hu, h]

theorem escaped_code {ds : Str} {n : ℕ} (h : hex4 ds = some (n, []))
    (hn : isHigh n = false ∧ isLow n = false) (rest : Str) :
    escaped ('u' :: ds ++ rest) = some (Char.ofNat n, rest) := by
  simp [escaped, codePoint, hex4_append h, hn.1, hn.2]

theorem escaped_pair {hs ls : Str} {n m : ℕ} (hh : hex4 hs = some (n, []))
    (hl : hex4 ls = some (m, [])) (hn : isHigh n = true) (hm : isLow m = true) (rest : Str) :
    escaped ('u' :: hs ++ '\\' :: 'u' :: ls ++ rest) = some (joined n m, rest) := by
  have hlow : lowHalf ('\\' :: 'u' :: (ls ++ rest)) = some (m, rest) := by
    simp [lowHalf, hex4_append hl, hm]
  simp [escaped, codePoint, List.append_assoc, hex4_append hh, hn, hlow]

theorem stringBody_escape {n : ℕ} {s rest : Str} {d : Char} (h : escaped s = some (d, rest)) :
    stringBody (n + 1) ('\\' :: s) =
      (stringBody n rest).map fun (t, r) => (d :: t, r) := by
  have hq : ('\\' : Char) ≠ '"' := by decide
  simp only [stringBody, hq, if_false, if_true, h, Option.bind_eq_bind, Option.bind_some,
    Option.pure_def]
  cases stringBody n rest <;> rfl

/-- A spelled string is read as the text it stands for. -/
theorem stringBody_spelled (cs : List StrChar) {n : ℕ} (hn : cs.length < n) (rest : Str) :
    stringBody n (bodyText cs ++ '"' :: rest) = some (bodyValue cs, rest) := by
  induction cs generalizing n with
  | nil =>
      obtain ⟨n, rfl⟩ := Nat.exists_eq_succ_of_ne_zero (Nat.ne_zero_of_lt hn)
      simp [stringBody, bodyValue]
  | cons c cs ih =>
      obtain ⟨n, rfl⟩ := Nat.exists_eq_succ_of_ne_zero (Nat.ne_zero_of_lt hn)
      have hrest := ih (by simpa using hn : cs.length < n)
      rw [bodyText_cons, List.append_assoc]
      cases c with
      | raw c h =>
          simp [StrChar.text, stringBody, h.1, h.2.1, h.2.2, hrest, bodyValue, StrChar.char]
      | letter c d h =>
          rw [StrChar.text, List.cons_append, List.cons_append, List.nil_append,
            stringBody_escape (escaped_letter h _), hrest]
          rfl
      | code ds k h hk =>
          have hesc := escaped_code h hk (bodyText cs ++ '"' :: rest)
          rw [StrChar.text, List.cons_append, stringBody_escape hesc, hrest]
          rfl
      | pair hs ls k m hh hl hk hm =>
          have hesc := escaped_pair hh hl hk hm (bodyText cs ++ '"' :: rest)
          rw [StrChar.text, List.cons_append, List.cons_append, stringBody_escape hesc, hrest]
          rfl

/-! ## Numbers -/

/-- The exponent of a number as it is spelled. -/
structure Exponent : Type where
  mark : Char
  sign : Str
  digits : Str
  mark_mem : mark = 'e' ∨ mark = 'E'
  sign_mem : sign = [] ∨ sign = ['-'] ∨ sign = ['+']
  digits_ne : digits ≠ []
  digits_all : ∀ c ∈ digits, isDigit c = true

/-- A number as it is spelled; without a fraction there are no digits of one. -/
structure Number : Type where
  neg : Bool
  whole : Str
  fraction : Str
  exponent : Option Exponent
  whole_mem : whole = ['0'] ∨ ∃ c ds, whole = c :: ds ∧ c ≠ '0'
  whole_all : ∀ c ∈ whole, isDigit c = true
  fraction_all : ∀ c ∈ fraction, isDigit c = true

namespace Exponent

def text (e : Exponent) : Str := e.mark :: e.sign ++ e.digits

def value (e : Exponent) : ℤ := (if e.sign = ['-'] then -1 else 1) * natOf e.digits

end Exponent

namespace Number

/-- The digits before the exponent, with the point. -/
def mantissaText (k : Number) : Str :=
  k.whole ++ if k.fraction = [] then [] else '.' :: k.fraction

/-- The number without its sign. -/
def unsigned (k : Number) : Str := k.mantissaText ++ (k.exponent.map Exponent.text).getD []

def text (k : Number) : Str := (if k.neg then ['-'] else []) ++ k.unsigned

/-- What the reader finds. -/
def parts (k : Number) : Parts := ⟨k.neg, k.whole, k.fraction, k.exponent.map Exponent.value⟩

end Number

/-- A digit is no other mark. -/
theorem ne_of_isDigit {c d : Char} (hc : isDigit c = true) (hd : isDigit d = false) : c ≠ d := by
  rintro rfl
  rw [hc] at hd
  cases hd

/-- A number begins with a digit or a minus sign. -/
theorem Number.exists_head (k : Number) :
    ∃ c r, k.text = c :: r ∧ (c = '-' ∨ isDigit c = true) := by
  obtain ⟨c, ds, hw⟩ : ∃ c ds, k.whole = c :: ds := by
    rcases k.whole_mem with h | ⟨c, ds, h, -⟩
    · exact ⟨_, _, h⟩
    · exact ⟨c, ds, h⟩
  have hdigit : isDigit c = true := k.whole_all c (by simp [hw])
  cases hneg : k.neg with
  | true => exact ⟨'-', k.unsigned, by simp [Number.text, hneg], .inl rfl⟩
  | false =>
      exact ⟨c, _, by simp [Number.text, Number.unsigned, Number.mantissaText, hneg, hw]; rfl,
      .inr hdigit⟩

/-- The characters of a number. -/
theorem Number.mem_text {k : Number} {c : Char} (h : c ∈ k.text) :
    isDigit c = true ∨ c ∈ "-+.eE".toList := by
  have hexp : c ∈ (k.exponent.map Exponent.text).getD [] →
      isDigit c = true ∨ c ∈ "-+.eE".toList := by
    cases k.exponent with
    | none => simp
    | some e =>
        intro h
        rcases List.mem_append.mp h with h | h
        · rcases List.mem_cons.mp h with rfl | h
          · rcases e.mark_mem with hm | hm <;> rw [hm] <;> exact .inr (by decide)
          · rcases e.sign_mem with hs | hs | hs <;> rw [hs] at h <;> simp at h <;>
              exact .inr (by rw [h]; decide)
        · exact .inl (e.digits_all c h)
  simp only [text, unsigned, mantissaText, List.mem_append] at h
  rcases h with h | (h | h) | h
  · split at h
    · exact .inr (by rw [List.mem_singleton.mp h]; decide)
    · cases h
  · exact .inl (k.whole_all c h)
  · split at h
    · cases h
    · rcases List.mem_cons.mp h with rfl | h
      · exact .inr (by decide)
      · exact .inl (k.fraction_all c h)
  · exact hexp h

/-- What follows a number does not go on with it. -/
def Ends (rest : Str) : Prop :=
  ∀ c ∈ rest.head?, isDigit c = false ∧ c ≠ '.' ∧ c ≠ 'e' ∧ c ≠ 'E'

theorem takeWhile_append_of_head {p : Char → Bool} {as rest : Str} (ha : ∀ c ∈ as, p c = true)
    (hr : ∀ c ∈ rest.head?, p c = false) :
    (as ++ rest).takeWhile p = as ∧ (as ++ rest).dropWhile p = rest := by
  have htake : rest.takeWhile p = [] := by
    cases rest with
    | nil => rfl
    | cons c rest => simp [hr c rfl]
  have hdrop : rest.dropWhile p = rest := by
    cases rest with
    | nil => rfl
    | cons c rest => simp [hr c rfl]
  rw [List.takeWhile_append_of_pos ha, List.dropWhile_append_of_pos ha, htake, hdrop,
    List.append_nil]
  exact ⟨rfl, rfl⟩

theorem wholePart_spelled (k : Number) {rest : Str} (hr : ∀ c ∈ rest.head?, isDigit c = false) :
    wholePart (k.whole ++ rest) = some (k.whole, rest) := by
  rcases k.whole_mem with h | ⟨c, ds, h, hc⟩
  · rw [h]
    rfl
  · have hall := k.whole_all
    rw [h] at hall ⊢
    have hdigit : isDigit c = true := hall c (by simp)
    have hds : ∀ d ∈ ds, isDigit d = true := fun d hd => hall d (by simp [hd])
    obtain ⟨ht, hd⟩ := takeWhile_append_of_head hds hr
    rw [List.cons_append, wholePart, if_neg hc, if_pos hdigit, ht, hd]

theorem exponentPart_spelled (e : Option Exponent) {rest : Str} (hr : Ends rest) :
    exponentPart ((e.map Exponent.text).getD [] ++ rest) = (e.map Exponent.value, rest) := by
  cases e with
  | none =>
      cases rest with
      | nil => rfl
      | cons c rest =>
          obtain ⟨-, -, he, hE⟩ := hr c rfl
          simp [exponentPart, he, hE]
  | some e =>
      obtain ⟨ht, hd⟩ := takeWhile_append_of_head e.digits_all fun c hc => (hr c hc).1
      have hsign : signPart (e.sign ++ (e.digits ++ rest)) =
          (if e.sign = ['-'] then -1 else 1, e.digits ++ rest) := by
        rcases e.sign_mem with h | h | h
        · obtain ⟨c, ds, hds⟩ := List.exists_cons_of_ne_nil e.digits_ne
          have hc : isDigit c = true := e.digits_all c (by simp [hds])
          have hminus : c ≠ '-' := by
            rintro rfl
            exact absurd hc (by decide)
          have hplus : c ≠ '+' := by
            rintro rfl
            exact absurd hc (by decide)
          simp [h, hds, signPart, hminus, hplus]
        · rw [h]
          rfl
        · rw [h]
          rfl
      simp [Exponent.text, exponentPart, e.mark_mem, hsign, ht, hd, e.digits_ne, Exponent.value]

theorem fractionPart_spelled (k : Number) {rest : Str}
    (hr : ∀ c ∈ rest.head?, isDigit c = false ∧ c ≠ '.') :
    fractionPart ((if k.fraction = [] then [] else '.' :: k.fraction) ++ rest) =
      (k.fraction, rest) := by
  by_cases h : k.fraction = []
  · rw [if_pos h, List.nil_append, h]
    cases rest with
    | nil => rfl
    | cons c rest =>
        have hc := (hr c rfl).2
        unfold fractionPart
        split
        · rename_i heq
          exact absurd (List.cons.inj heq).1 hc
        · rfl
  · obtain ⟨ht, hd⟩ := takeWhile_append_of_head k.fraction_all fun c hc => (hr c hc).1
    rw [if_neg h, List.cons_append, fractionPart, ht, hd, if_neg h]

/-- What follows the digits before the exponent, in a number that ends. -/
theorem exponent_head (e : Option Exponent) {rest : Str} (hr : Ends rest) :
    ∀ c ∈ ((e.map Exponent.text).getD [] ++ rest).head?, isDigit c = false ∧ c ≠ '.' := by
  intro c hc
  cases e with
  | none => exact ⟨(hr c hc).1, (hr c hc).2.1⟩
  | some e =>
      obtain rfl : e.mark = c := by simpa [Exponent.text] using hc
      rcases e.mark_mem with h | h <;> rw [h] <;> decide

/-- A spelled number is read as the number it stands for. -/
theorem number_spelled (k : Number) {rest : Str} (hr : Ends rest) :
    number (k.text ++ rest) = some (k.parts.json, rest) := by
  have hexp := exponentPart_spelled k.exponent hr
  have hfrac := fractionPart_spelled k (exponent_head k.exponent hr)
  have hwhole : wholePart (k.unsigned ++ rest) = some (k.whole,
      (if k.fraction = [] then [] else '.' :: k.fraction) ++
        ((k.exponent.map Exponent.text).getD [] ++ rest)) := by
    have h : wholePart (k.whole ++ ((if k.fraction = [] then [] else '.' :: k.fraction) ++
        ((k.exponent.map Exponent.text).getD [] ++ rest))) = _ := wholePart_spelled k ?_
    · simpa only [Number.unsigned, Number.mantissaText, List.append_assoc] using h
    · intro c hc
      by_cases hf : k.fraction = []
      · rw [if_pos hf] at hc
        exact (exponent_head k.exponent hr c hc).1
      · rw [if_neg hf] at hc
        obtain rfl : '.' = c := by simpa using hc
        rfl
  have hminus : minusPart (k.text ++ rest) = (k.neg, k.unsigned ++ rest) := by
    cases hneg : k.neg with
    | true => simp [Number.text, hneg, minusPart]
    | false =>
        have htext : k.text ++ rest = k.unsigned ++ rest := by simp [Number.text, hneg]
        rw [htext]
        unfold minusPart
        split
        · rename_i heq
          rw [heq] at hwhole
          cases hwhole
        · rfl
  simp only [number, hminus, hwhole, Option.map_some, hfrac, hexp, Number.parts]

/-! ## Values -/

/-- White space. -/
def Blank (w : Str) : Prop := ∀ c ∈ w, isBlank c = true

/-- What a text may stand for: a value, what a list holds, or what an object holds. -/
inductive Form : Type
  | value (v : Json)
  | items (vs : List Json)
  | members (fs : List (Str × Json))

/-- A member of an object: its key, a colon and its value, with the white space between. -/
def memberText (key : List StrChar) (w w' t : Str) : Str := quoted key ++ w ++ ':' :: w' ++ t

/-- A text spells a value, the items of a list or the members of an object. -/
inductive Spells : Str → Form → Prop
  | word {t : Str} {v : Json} (h : (t, v) ∈ words) : Spells t (.value v)
  | number (k : Number) : Spells k.text (.value k.parts.json)
  | string (cs : List StrChar) : Spells (quoted cs) (.value (.str (bodyValue cs)))
  | emptyList {w : Str} (hw : Blank w) : Spells ('[' :: (w ++ [']'])) (.value (.arr []))
  | list {w t : Str} {vs : List Json} (hw : Blank w) (h : Spells t (.items vs)) :
      Spells ('[' :: (w ++ (t ++ [']']))) (.value (.arr vs))
  | emptyObject {w : Str} (hw : Blank w) : Spells ('{' :: (w ++ ['}'])) (.value (.obj []))
  | object {w t : Str} {fs : List (Str × Json)} (hw : Blank w) (h : Spells t (.members fs)) :
      Spells ('{' :: (w ++ (t ++ ['}']))) (.value (.obj (Dict.ofList fs).entries))
  | item {t w : Str} {v : Json} (h : Spells t (.value v)) (hw : Blank w) :
      Spells (t ++ w) (.items [v])
  | nextItem {t w w' t' : Str} {v : Json} {vs : List Json} (h : Spells t (.value v))
      (hw : Blank w) (hw' : Blank w') (h' : Spells t' (.items vs)) :
      Spells (t ++ (w ++ ',' :: (w' ++ t'))) (.items (v :: vs))
  | member {key : List StrChar} {w w' t u : Str} {v : Json} (hw : Blank w) (hw' : Blank w')
      (h : Spells t (.value v)) (hu : Blank u) :
      Spells (memberText key w w' t ++ u) (.members [(bodyValue key, v)])
  | nextMember {key : List StrChar} {w w' t u u' t' : Str} {v : Json} {fs : List (Str × Json)}
      (hw : Blank w) (hw' : Blank w') (h : Spells t (.value v)) (hu : Blank u) (hu' : Blank u')
      (h' : Spells t' (.members fs)) :
      Spells (memberText key w w' t ++ (u ++ ',' :: (u' ++ t')))
        (.members ((bodyValue key, v) :: fs))

theorem skip_blank {w s : Str} (hw : Blank w) (hs : ∀ c ∈ s.head?, isBlank c = false) :
    skip (w ++ s) = s := (takeWhile_append_of_head hw hs).2

theorem skip_all {w : Str} (hw : Blank w) : skip w = [] := by
  simpa using skip_blank (s := []) hw (by simp)

/-- White space, and the marks that follow a value, do not go on with a number. -/
theorem ends_blank {w rest : Str} (hw : Blank w) (hr : Ends rest) : Ends (w ++ rest) := by
  intro c hc
  cases w with
  | nil => exact hr c hc
  | cons d w =>
      obtain rfl : d = c := by simpa using hc
      have hd := hw d (by simp)
      simp only [isBlank, Bool.or_eq_true, decide_eq_true_eq] at hd
      rcases hd with ((rfl | rfl) | rfl) | rfl <;> decide

theorem ends_cons {c : Char} (h : c = ',' ∨ c = ']' ∨ c = '}') (rest : Str) : Ends (c :: rest) := by
  intro d hd
  obtain rfl : c = d := by simpa using hd
  rcases h with rfl | rfl | rfl <;> decide

/-- What a text that spells something begins with. -/
theorem head_of_spells {t : Str} {f : Form} (h : Spells t f) :
    ∃ c r, t = c :: r ∧ isBlank c = false ∧ c ≠ ']' ∧ c ≠ '}' := by
  induction h with
  | word h =>
      simp only [words, List.mem_cons, Prod.mk.injEq, List.not_mem_nil, or_false] at h
      rcases h with ⟨rfl, -⟩ | ⟨rfl, -⟩ | ⟨rfl, -⟩ | ⟨rfl, -⟩ | ⟨rfl, -⟩ | ⟨rfl, -⟩ <;>
        exact ⟨_, _, rfl, by decide, by decide, by decide⟩
  | number k =>
      obtain ⟨c, r, hc, hminus | hdigit⟩ := k.exists_head
      · exact ⟨c, r, hc, by rw [hminus]; decide, by rw [hminus]; decide, by rw [hminus]; decide⟩
      · have hne : ∀ d, isDigit d = false → c ≠ d := fun d => ne_of_isDigit hdigit
        refine ⟨c, r, hc, ?_, hne _ (by decide), hne _ (by decide)⟩
        simp [isBlank, hne ' ' (by decide), hne '\t' (by decide), hne '\n' (by decide),
          hne '\r' (by decide)]
  | string cs => exact ⟨'"', _, rfl, by decide, by decide, by decide⟩
  | emptyList hw => exact ⟨'[', _, rfl, by decide, by decide, by decide⟩
  | list hw h => exact ⟨'[', _, rfl, by decide, by decide, by decide⟩
  | emptyObject hw => exact ⟨'{', _, rfl, by decide, by decide, by decide⟩
  | object hw h => exact ⟨'{', _, rfl, by decide, by decide, by decide⟩
  | item h hw ih =>
      obtain ⟨c, r, rfl, hc⟩ := ih
      exact ⟨c, _, rfl, hc⟩
  | nextItem h hw hw' h' ih =>
      obtain ⟨c, r, rfl, hc⟩ := ih
      exact ⟨c, _, rfl, hc⟩
  | member hw hw' h hu => exact ⟨'"', _, rfl, by decide, by decide, by decide⟩
  | nextMember hw hw' h hu hu' h' => exact ⟨'"', _, rfl, by decide, by decide, by decide⟩

theorem skip_to_spelled {w t : Str} {f : Form} (hw : Blank w) (h : Spells t f) (rest : Str) :
    skip (w ++ (t ++ rest)) = t ++ rest := by
  obtain ⟨c, r, rfl, hblank, -⟩ := head_of_spells h
  exact skip_blank hw (by simpa using hblank)

/-- What the reader for a form makes of a text of this form, whatever follows. -/
def Reads (t : Str) : Form → Prop
  | .value v => ∀ n, t.length < n → ∀ rest, Ends rest → value n (t ++ rest) = some (v, rest)
  | .items vs => ∀ n, t.length + 1 < n → ∀ rest, items n (t ++ ']' :: rest) = some (vs, rest)
  | .members fs => ∀ n, t.length < n → ∀ rest, members n (t ++ '}' :: rest) = some (fs, rest)

theorem reads_word {t : Str} {v : Json} (h : (t, v) ∈ words) : Reads t (.value v) := by
  intro n hn rest _
  obtain ⟨n, rfl⟩ := Nat.exists_eq_succ_of_ne_zero (Nat.ne_zero_of_lt hn)
  simp only [words, List.mem_cons, Prod.mk.injEq, List.not_mem_nil, or_false] at h
  rcases h with ⟨rfl, rfl⟩ | ⟨rfl, rfl⟩ | ⟨rfl, rfl⟩ | ⟨rfl, rfl⟩ | ⟨rfl, rfl⟩ | ⟨rfl, rfl⟩ <;> rfl

theorem reads_number (k : Number) : Reads k.text (.value k.parts.json) := by
  intro n hn rest hrest
  obtain ⟨n, rfl⟩ := Nat.exists_eq_succ_of_ne_zero (Nat.ne_zero_of_lt hn)
  have hnum := number_spelled k hrest
  obtain ⟨c, r, hc, hhead⟩ := k.exists_head
  have hne : ∀ d, isDigit d = false → d ≠ '-' → c ≠ d := by
    intro d hd hd'
    rcases hhead with rfl | hdigit
    · exact hd'.symm
    · exact ne_of_isDigit hdigit hd
  rw [hc, List.cons_append] at hnum ⊢
  rw [value, if_neg (hne _ (by decide) (by decide)), if_neg (hne _ (by decide) (by decide)),
    if_neg (hne _ (by decide) (by decide)), hnum, Option.some_or]

theorem stringBody_quoted (cs : List StrChar) (rest : Str) :
    stringBody ((bodyText cs ++ '"' :: rest).length + 1) (bodyText cs ++ '"' :: rest) =
      some (bodyValue cs, rest) := by
  refine stringBody_spelled cs ?_ rest
  have := length_le_bodyText cs
  rw [List.length_append]
  omega

theorem quoted_append (cs : List StrChar) (rest : Str) :
    quoted cs ++ rest = '"' :: (bodyText cs ++ '"' :: rest) := by
  simp [quoted]

theorem reads_string (cs : List StrChar) : Reads (quoted cs) (.value (.str (bodyValue cs))) := by
  intro n hn rest _
  obtain ⟨n, rfl⟩ := Nat.exists_eq_succ_of_ne_zero (Nat.ne_zero_of_lt hn)
  rw [quoted_append, value, if_pos rfl, stringBody_quoted]
  rfl

/-- The reader of members, at a member of which the key and the value are read. -/
theorem members_memberText {key : List StrChar} {w w' t : Str} {v : Json} (hw : Blank w)
    (hw' : Blank w') (hs : Spells t (.value v)) (h : Reads t (.value v)) {n : ℕ}
    (hn : t.length < n) {rest : Str} (hrest : Ends rest) :
    (∀ r, skip rest = '}' :: r →
        members (n + 1) (memberText key w w' t ++ rest) = some ([(bodyValue key, v)], r)) ∧
      ∀ r, skip rest = ',' :: r → members (n + 1) (memberText key w w' t ++ rest) =
        (members n (skip r)).map fun (fs, r) => ((bodyValue key, v) :: fs, r) := by
  have hvalue := h n hn rest hrest
  have hcolon : skip (w ++ ':' :: (w' ++ (t ++ rest))) = ':' :: (w' ++ (t ++ rest)) :=
    skip_blank hw (by simp [isBlank])
  have hgap := skip_to_spelled hw' hs rest
  have htext : memberText key w w' t ++ rest =
      '"' :: (bodyText key ++ '"' :: (w ++ ':' :: (w' ++ (t ++ rest)))) := by
    simp [memberText, quoted_append, List.append_assoc]
  rw [htext, members, if_pos rfl]
  simp only [stringBody_quoted, Option.bind_eq_bind, Option.bind_some, hcolon, hgap, hvalue]
  refine ⟨fun r hr => ?_, fun r hr => ?_⟩
  · rw [hr]
    rfl
  · rw [hr]
    show (members n (skip r)).bind _ = _
    cases members n (skip r) <;> rfl

/-- **The readers are complete.** By induction on how a text is spelled. -/
theorem reads_of_spells {t : Str} {f : Form} (h : Spells t f) : Reads t f := by
  induction h with
  | word h => exact reads_word h
  | number k => exact reads_number k
  | string cs => exact reads_string cs
  | @emptyList w hw =>
      intro n hn rest _
      obtain ⟨n, rfl⟩ := Nat.exists_eq_succ_of_ne_zero (Nat.ne_zero_of_lt hn)
      have hskip : skip (w ++ [']'] ++ rest) = ']' :: rest := by
        rw [List.append_assoc]
        exact skip_blank hw (by simp [isBlank])
      rw [List.cons_append, value, if_neg (by decide), if_pos rfl, hskip]
      rfl
  | @emptyObject w hw =>
      intro n hn rest _
      obtain ⟨n, rfl⟩ := Nat.exists_eq_succ_of_ne_zero (Nat.ne_zero_of_lt hn)
      have hskip : skip (w ++ ['}'] ++ rest) = '}' :: rest := by
        rw [List.append_assoc]
        exact skip_blank hw (by simp [isBlank])
      rw [List.cons_append, value, if_neg (by decide), if_neg (by decide), if_pos rfl, hskip]
      rfl
  | @list w t vs hw h ih =>
      intro n hn rest _
      obtain ⟨n, rfl⟩ := Nat.exists_eq_succ_of_ne_zero (Nat.ne_zero_of_lt hn)
      have hitems := ih n (by simp at hn; omega) rest
      obtain ⟨c, r, rfl, hblank, hclose, -⟩ := head_of_spells h
      have hskip : skip (w ++ (c :: r ++ [']']) ++ rest) = c :: (r ++ ']' :: rest) := by
        have := skip_blank (s := c :: (r ++ ']' :: rest)) hw (by simpa using hblank)
        simpa [List.append_assoc] using this
      rw [List.cons_append, value, if_neg (by decide), if_pos rfl, hskip]
      rw [List.cons_append] at hitems
      split
      · rename_i heq
        exact absurd (List.cons.inj heq).1 hclose
      · rw [hitems]
        rfl
  | @object w t fs hw h ih =>
      intro n hn rest _
      obtain ⟨n, rfl⟩ := Nat.exists_eq_succ_of_ne_zero (Nat.ne_zero_of_lt hn)
      have hmembers := ih n (by simp at hn; omega) rest
      obtain ⟨c, r, rfl, hblank, -, hclose⟩ := head_of_spells h
      have hskip : skip (w ++ (c :: r ++ ['}']) ++ rest) = c :: (r ++ '}' :: rest) := by
        have := skip_blank (s := c :: (r ++ '}' :: rest)) hw (by simpa using hblank)
        simpa [List.append_assoc] using this
      rw [List.cons_append, value, if_neg (by decide), if_neg (by decide), if_pos rfl, hskip]
      rw [List.cons_append] at hmembers
      split
      · rename_i heq
        exact absurd (List.cons.inj heq).1 hclose
      · rw [hmembers]
        rfl
  | @item t w v h hw ih =>
      intro n hn rest
      obtain ⟨n, rfl⟩ := Nat.exists_eq_succ_of_ne_zero (Nat.ne_zero_of_lt hn)
      have hvalue := ih n (by simp at hn; omega) (w ++ ']' :: rest)
        (ends_blank hw (ends_cons (.inr (.inl rfl)) rest))
      have hskip : skip (w ++ ']' :: rest) = ']' :: rest := skip_blank hw (by simp [isBlank])
      rw [List.append_assoc, items, hvalue]
      simp only [Option.bind_eq_bind, Option.bind_some, hskip]
      rfl
  | @nextItem t w w' t' v vs h hw hw' h' ih ih' =>
      intro n hn rest
      obtain ⟨n, rfl⟩ := Nat.exists_eq_succ_of_ne_zero (Nat.ne_zero_of_lt hn)
      have hlen : t.length < n ∧ t'.length + 1 < n := by
        simp at hn
        omega
      have hvalue := ih n hlen.1 (w ++ ',' :: (w' ++ (t' ++ ']' :: rest)))
        (ends_blank hw (ends_cons (.inl rfl) _))
      have hcomma : skip (w ++ ',' :: (w' ++ (t' ++ ']' :: rest))) =
          ',' :: (w' ++ (t' ++ ']' :: rest)) := skip_blank hw (by simp [isBlank])
      have hgap := skip_to_spelled hw' h' (']' :: rest)
      have htext : t ++ (w ++ ',' :: (w' ++ t')) ++ ']' :: rest =
          t ++ (w ++ ',' :: (w' ++ (t' ++ ']' :: rest))) := by
        simp [List.append_assoc]
      rw [htext, items, hvalue]
      simp only [Option.bind_eq_bind, Option.bind_some, hcomma, hgap, ih' n hlen.2 rest]
      rfl
  | @member key w w' t u v hw hw' h hu ih =>
      intro n hn rest
      obtain ⟨n, rfl⟩ := Nat.exists_eq_succ_of_ne_zero (Nat.ne_zero_of_lt hn)
      have hlen : t.length < n := by
        simp [memberText, quoted] at hn
        omega
      have hends : Ends (u ++ '}' :: rest) := ends_blank hu (ends_cons (.inr (.inr rfl)) rest)
      rw [List.append_assoc]
      exact (members_memberText hw hw' h ih hlen hends).1 rest (skip_blank hu (by simp [isBlank]))
  | @nextMember key w w' t u u' t' v fs hw hw' h hu hu' h' ih ih' =>
      intro n hn rest
      obtain ⟨n, rfl⟩ := Nat.exists_eq_succ_of_ne_zero (Nat.ne_zero_of_lt hn)
      have hlen : t.length < n ∧ t'.length < n := by
        simp [memberText, quoted] at hn
        omega
      have hends : Ends (u ++ ',' :: (u' ++ (t' ++ '}' :: rest))) :=
        ends_blank hu (ends_cons (.inl rfl) _)
      have hcomma : skip (u ++ ',' :: (u' ++ (t' ++ '}' :: rest))) =
          ',' :: (u' ++ (t' ++ '}' :: rest)) := skip_blank hu (by simp [isBlank])
      have htext : memberText key w w' t ++ (u ++ ',' :: (u' ++ t')) ++ '}' :: rest =
          memberText key w w' t ++ (u ++ ',' :: (u' ++ (t' ++ '}' :: rest))) := by
        simp [List.append_assoc]
      rw [htext, (members_memberText hw hw' h ih hlen.1 hends).2 _ hcomma,
        skip_to_spelled hu' h' ('}' :: rest), ih' n hlen.2 rest]
      rfl

/-- A text that spells a value, between white space, is read as the value. -/
theorem loads_of_spells {w t w' : Str} {v : Json} (hw : Blank w) (h : Spells t (.value v))
    (hw' : Blank w') : loads (w ++ (t ++ w')) = some v := by
  have hends : Ends w' := by
    have hnil : Ends [] := fun c hc => by cases hc
    have h := ends_blank hw' hnil
    rwa [List.append_nil] at h
  have hvalue := reads_of_spells h ((w ++ (t ++ w')).length + 1)
    (by simp only [List.length_append]; omega) w' hends
  rw [loads, skip_to_spelled hw h, hvalue, Option.bind_some]
  exact if_pos (skip_all hw')

/-! ## Members -/

/-- The white space around a member's key and value. -/
structure Gaps : Type where
  before : Str
  afterKey : Str
  afterColon : Str
  after : Str
  before_blank : Blank before
  afterKey_blank : Blank afterKey
  afterColon_blank : Blank afterColon
  after_blank : Blank after

/-- A member and the white space around it. -/
def Gaps.member (g : Gaps) (key : List StrChar) (v : Str) : Str :=
  g.before ++ (memberText key g.afterKey g.afterColon v ++ g.after)

/-- A member, a comma and what follows. -/
def Gaps.next (g : Gaps) (key : List StrChar) (v t : Str) : Str :=
  g.before ++ (memberText key g.afterKey g.afterColon v ++ (g.after ++ ',' :: t))

/-- A text is white space and then members. -/
def Lists (t : Str) (fs : List (Str × Json)) : Prop :=
  ∃ w t', t = w ++ t' ∧ Blank w ∧ Spells t' (.members fs)

theorem lists_member (g : Gaps) (key : List StrChar) {v : Str} {j : Json}
    (h : Spells v (.value j)) : Lists (g.member key v) [(bodyValue key, j)] :=
  ⟨g.before, _, rfl, g.before_blank,
    .member g.afterKey_blank g.afterColon_blank h g.after_blank⟩

theorem lists_next (g : Gaps) (key : List StrChar) {v t : Str} {j : Json}
    {fs : List (Str × Json)} (h : Spells v (.value j)) (ht : Lists t fs) :
    Lists (g.next key v t) ((bodyValue key, j) :: fs) := by
  obtain ⟨w, t, rfl, hw, ht⟩ := ht
  exact ⟨g.before, _, rfl, g.before_blank,
    .nextMember g.afterKey_blank g.afterColon_blank h g.after_blank hw ht⟩

theorem spells_of_lists {t : Str} {fs : List (Str × Json)} (h : Lists t fs) :
    Spells ('{' :: (t ++ ['}'])) (.value (.obj (Dict.ofList fs).entries)) := by
  obtain ⟨w, t, rfl, hw, ht⟩ := h
  rw [List.append_assoc]
  exact .object hw ht

end Py.JsonText
