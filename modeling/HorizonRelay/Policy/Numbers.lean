import HorizonRelay.Policy
import Mathlib.Data.List.SplitBy

/-!
# The numbers of a text

A number ends before the first character that cannot stand in one, so the numbers of a text
are those of its parts between such characters.  What is between the parts does not matter:
a text states the same numbers in lower case, and with other white space.

## Main results

* `allNumbers_append` — the numbers before and after a character that cannot stand in one.
* `numbersIn_lower`, `numbersIn_join_words` — what does not change the numbers of a text.
-/

namespace HorizonRelay

open Py

variable {lib : StdLib} {s t : Str} {b : Char}

/-- All numbers of a text, in order. -/
def allNumbers (lib : StdLib) (s : Str) : List Str := numberRuns lib s.length s

theorem numbersIn_congr (h : allNumbers lib s = allNumbers lib t) :
    numbersIn lib s = numbersIn lib t := by
  unfold allNumbers at h
  rw [numbersIn, numbersIn, h]

/-! ## One number -/

theorem isDecimal_of_not_numeric (hb : lib.isNumeric b = false) : lib.isDecimal b = false := by
  simp only [StdLib.isNumeric, Bool.or_eq_false_iff] at hb
  exact hb.1.1.1

theorem takeWhile_append_of_not {p : Char → Bool} (hb : p b = false) (s t : Str) :
    (s ++ b :: t).takeWhile p = s.takeWhile p := by
  induction s with
  | nil => simp [hb]
  | cons c s ih => simp only [List.cons_append, List.takeWhile_cons, ih]

theorem drop_append_takeWhile {p : Char → Bool} (s t : Str) :
    (s ++ t).drop (s.takeWhile p).length = s.drop (s.takeWhile p).length ++ t :=
  List.drop_append_of_le_length (List.takeWhile_prefix p).length_le

/-- Digit groups end before a character that cannot stand in a number. -/
theorem digitGroups_append (hb : lib.isNumeric b = false) (t : Str) {n m : ℕ} {s : Str}
    (hn : s.length < n) (hm : s.length ≤ m) :
    digitGroups lib n (s ++ b :: t) = digitGroups lib m s := by
  induction n generalizing m s with
  | zero => omega
  | succ n ih =>
      cases s with
      | nil =>
          have hb' := hb
          simp only [StdLib.isNumeric, Bool.or_eq_false_iff, decide_eq_false_iff_not] at hb'
          cases m <;> simp [digitGroups, hb'.1.2, hb'.2]
      | cons c s =>
          cases m with
          | zero => simp at hm
          | succ m =>
              simp only [List.length_cons] at hn hm
              simp only [List.cons_append, digitGroups,
                takeWhile_append_of_not (isDecimal_of_not_numeric hb), drop_append_takeWhile]
              rw [ih (m := m)]
              · simp only [List.length_drop]
                omega
              · simp only [List.length_drop]
                omega

/-- The digits at the front of a text, with the groups that go on with them. -/
def digitsAt (lib : StdLib) (s : Str) : Option Str :=
  let digits := s.takeWhile lib.isDecimal
  if digits = [] then none
  else some (digits ++ digitGroups lib s.length (s.drop digits.length))

theorem numberAt_minus (s : Str) : numberAt lib ('-' :: s) = (digitsAt lib s).map ('-' :: ·) := by
  simp only [numberAt, digitsAt]
  split <;> simp

theorem numberAt_of_ne (hs : s.head? ≠ some '-') : numberAt lib s = digitsAt lib s := by
  unfold numberAt digitsAt
  split
  rename_i sign rest h
  split at h
  · simp at hs
  · cases h
    simp

theorem digitsAt_append (hb : lib.isNumeric b = false) (s t : Str) :
    digitsAt lib (s ++ b :: t) = digitsAt lib s := by
  simp only [digitsAt, takeWhile_append_of_not (isDecimal_of_not_numeric hb), drop_append_takeWhile]
  rw [digitGroups_append hb t (m := s.length)]
  · simp only [List.length_drop, List.length_append, List.length_cons]
    omega
  · simp

/-- A number ends before a character that cannot stand in one. -/
theorem numberAt_append (hb : lib.isNumeric b = false) (s t : Str) :
    numberAt lib (s ++ b :: t) = numberAt lib s := by
  by_cases hs : s.head? = some '-'
  · obtain ⟨s', rfl⟩ := List.head?_eq_some_iff.mp hs
    rw [List.cons_append, numberAt_minus, numberAt_minus, digitsAt_append hb]
  · have hs' : (s ++ b :: t).head? ≠ some '-' := by
      cases s with
      | nil =>
          rintro h
          cases h
          simp [StdLib.isNumeric] at hb
      | cons c s => exact hs
    rw [numberAt_of_ne hs, numberAt_of_ne hs', digitsAt_append hb]

theorem takeWhile_append_drop (p : Char → Bool) (s : Str) :
    s.takeWhile p ++ s.drop (s.takeWhile p).length = s :=
  List.prefix_iff_eq_append.mp (List.takeWhile_prefix p)

theorem prefix_digitGroups (n : ℕ) (s : Str) : digitGroups lib n s <+: s := by
  induction n generalizing s with
  | zero => simp [digitGroups]
  | succ n ih =>
      cases s with
      | nil => simp [digitGroups]
      | cons c s =>
          simp only [digitGroups]
          split
          · obtain ⟨t, ht⟩ := ih (s.drop (s.takeWhile lib.isDecimal).length)
            refine ⟨t, ?_⟩
            rw [List.cons_append, List.cons_append, List.append_assoc, ht, takeWhile_append_drop]
          · exact List.nil_prefix

theorem prefix_digitsAt {n : Str} (h : digitsAt lib s = some n) : n <+: s ∧ n ≠ [] := by
  simp only [digitsAt] at h
  split at h
  · cases h
  · rename_i hne
    cases h
    have hgroups : digitGroups lib s.length _ <+: s.drop (s.takeWhile lib.isDecimal).length :=
      prefix_digitGroups _ _
    obtain ⟨t, ht⟩ := hgroups
    refine ⟨⟨t, ?_⟩, by simp [hne]⟩
    rw [List.append_assoc, ht, takeWhile_append_drop]

/-- A number is a part of its text. -/
theorem prefix_numberAt {n : Str} (h : numberAt lib s = some n) : n <+: s ∧ n ≠ [] := by
  by_cases hs : s.head? = some '-'
  · obtain ⟨s', rfl⟩ := List.head?_eq_some_iff.mp hs
    rw [numberAt_minus] at h
    obtain ⟨d, hd, rfl⟩ := Option.map_eq_some_iff.mp h
    exact ⟨List.cons_prefix_cons.mpr ⟨rfl, (prefix_digitsAt hd).1⟩, List.cons_ne_nil _ _⟩
  · rw [numberAt_of_ne hs] at h
    exact prefix_digitsAt h

/-! ## All numbers -/

/-- With turns enough, how many there are does not matter. -/
theorem numberRuns_fuel {n m : ℕ} {s : Str} (hn : s.length ≤ n) (hm : s.length ≤ m) :
    numberRuns lib n s = numberRuns lib m s := by
  induction n generalizing m s with
  | zero =>
      obtain rfl := List.length_eq_zero_iff.mp (Nat.le_zero.mp hn)
      cases m <;> rfl
  | succ n ih =>
      cases s with
      | nil => cases m <;> rfl
      | cons c s =>
          cases m with
          | zero => simp at hm
          | succ m =>
              simp only [List.length_cons] at hn hm
              simp only [numberRuns]
              split
              · rename_i number h
                have hpos := List.length_pos_of_ne_nil (prefix_numberAt h).2
                rw [ih (m := m)] <;> simp only [List.length_drop, List.length_cons] <;> omega
              · exact ih (by omega) (by omega)

theorem allNumbers_cons (c : Char) (s : Str) : allNumbers lib (c :: s) =
    match numberAt lib (c :: s) with
    | some number => number :: allNumbers lib ((c :: s).drop number.length)
    | none => allNumbers lib s := by
  simp only [allNumbers, List.length_cons, numberRuns]
  cases h : numberAt lib (c :: s) with
  | none => rfl
  | some number =>
      have hpos := List.length_pos_of_ne_nil (prefix_numberAt h).2
      refine congrArg (number :: ·) (numberRuns_fuel ?_ le_rfl)
      simp only [List.length_drop, List.length_cons]
      omega

/-- **The numbers before and after a character that cannot stand in one.** -/
theorem allNumbers_append (hb : lib.isNumeric b = false) (s t : Str) :
    allNumbers lib (s ++ b :: t) = allNumbers lib s ++ allNumbers lib t := by
  induction hlen : s.length using Nat.strong_induction_on generalizing s with
  | _ len ih =>
      cases s with
      | nil =>
          have hnone : numberAt lib (b :: t) = none := numberAt_append hb [] t
          rw [List.nil_append, allNumbers_cons, hnone]
          rfl
      | cons c s =>
          simp only [List.length_cons] at hlen
          have happ := numberAt_append hb (c :: s) t
          rw [List.cons_append] at happ ⊢
          rw [allNumbers_cons, allNumbers_cons, happ]
          cases h : numberAt lib (c :: s) with
          | none => exact ih s.length (by omega) s rfl
          | some number =>
              obtain ⟨hpre, hne⟩ := prefix_numberAt h
              have hpos := List.length_pos_of_ne_nil hne
              have hdrop : (c :: (s ++ b :: t)).drop number.length =
                  (c :: s).drop number.length ++ b :: t := by
                rw [← List.cons_append, List.drop_append_of_le_length hpre.length_le]
              simp only [hdrop, List.cons_append]
              rw [ih _ _ _ rfl]
              simp only [List.length_drop, List.length_cons]
              omega

theorem allNumbers_cons_of_not (hb : lib.isNumeric b = false) (t : Str) :
    allNumbers lib (b :: t) = allNumbers lib t := allNumbers_append hb [] t

/-- Any number of such characters do. -/
theorem allNumbers_append_of_not {p : Str} (hp : ∀ b ∈ p, lib.isNumeric b = false) (hne : p ≠ [])
    (s t : Str) : allNumbers lib (s ++ p ++ t) = allNumbers lib s ++ allNumbers lib t := by
  induction p generalizing s with
  | nil => exact absurd rfl hne
  | cons b p ih =>
      have hb := hp b List.mem_cons_self
      rw [List.append_assoc, List.cons_append, allNumbers_append hb]
      cases p with
      | nil => rfl
      | cons c p =>
          have hrest := ih (fun d hd => hp d (List.mem_cons_of_mem _ hd)) (List.cons_ne_nil _ _) []
          rw [List.nil_append] at hrest
          rw [hrest]
          rfl

/-! ## Lower case and white space -/

/-- Text that may go before the characters that are replaced. -/
theorem allNumbers_flatten {ps : List Str} (h : List.Forall₂ (fun c p => p = [c] ∨
      lib.isNumeric c = false ∧ p ≠ [] ∧ ∀ d ∈ p, lib.isNumeric d = false) s ps) (t : Str) :
    allNumbers lib (t ++ ps.flatten) = allNumbers lib (t ++ s) := by
  induction h generalizing t with
  | nil => rfl
  | @cons c p s ps hcp _ ih =>
      rcases hcp with rfl | ⟨hc, hne, hp⟩
      · have hrest := ih (t ++ [c])
        simpa using hrest
      · have hrest := ih []
        rw [List.nil_append, List.nil_append] at hrest
        rw [List.flatten_cons, ← List.append_assoc, allNumbers_append_of_not hp hne, hrest,
          allNumbers_append hc]

/-- **A text states the same numbers in lower case.** -/
theorem numbersIn_lower (hlib : lib.TextLaws) (s : Str) :
    numbersIn lib (lib.lower s) = numbersIn lib s := by
  obtain ⟨ps, hlower, hps⟩ := hlib.lower s
  rw [hlower]
  exact numbersIn_congr (allNumbers_flatten hps [])

theorem isNumeric_of_space (hlib : lib.TextLaws) (hb : isSpace b = true) :
    lib.isNumeric b = false := by
  have hdec := hlib.space b hb
  have hne : ∀ c : Char, isSpace c = false → b ≠ c := by
    rintro c hc rfl
    rw [hc] at hb
    cases hb
  simp only [StdLib.isNumeric, hdec, Bool.false_or, Bool.or_eq_false_iff, decide_eq_false_iff_not]
  exact ⟨⟨hne '-' (by decide), hne '.' (by decide)⟩, hne ',' (by decide)⟩

/-- The numbers of the parts of a text that are cut where white space begins and ends. -/
theorem allNumbers_groups (hlib : lib.TextLaws) {gs : List Str}
    (huniform : ∀ g ∈ gs, ∀ c ∈ g, ∀ d ∈ g, isSpace c = isSpace d) (hnil : [] ∉ gs)
    (hchain : gs.IsChain fun g g' =>
      ∃ ha hb, (isSpace (g.getLast ha) == isSpace (g'.head hb)) = false) :
    allNumbers lib gs.flatten = (gs.filter fun g => !g.all isSpace).flatMap (allNumbers lib) := by
  induction gs with
  | nil => rfl
  | cons g gs ih =>
      have hrest := ih (fun g' hg' => huniform g' (List.mem_cons_of_mem _ hg'))
        (fun h => hnil (List.mem_cons_of_mem _ h)) hchain.tail
      have hne : g ≠ [] := fun h => hnil (h ▸ List.mem_cons_self)
      rw [List.flatten_cons]
      by_cases hspace : g.all isSpace = true
      · have hnot : ∀ b ∈ g, lib.isNumeric b = false := fun b hb =>
          isNumeric_of_space hlib (List.all_eq_true.mp hspace b hb)
        have happ := allNumbers_append_of_not hnot hne [] gs.flatten
        rw [List.nil_append] at happ
        rw [happ, List.filter_cons_of_neg (by simp [hspace]), ← hrest]
        rfl
      · rw [List.filter_cons_of_pos (by simp [hspace]), List.flatMap_cons, ← hrest]
        cases gs with
        | nil => simp [allNumbers, numberRuns]
        | cons g' gs =>
            -- the next part is white space, where the number ends
            obtain ⟨ha, hb, hdiffer⟩ := (List.isChain_cons_cons.mp hchain).1
            have hlast : isSpace (g.getLast ha) = false := by
              refine Bool.eq_false_iff.mpr fun h => hspace (List.all_eq_true.mpr fun c hc => ?_)
              rw [huniform g List.mem_cons_self c hc _ (List.getLast_mem ha), h]
            have hhead : isSpace (g'.head hb) = true := by
              rw [hlast] at hdiffer
              simpa using hdiffer
            cases g' with
            | nil => exact absurd rfl hb
            | cons b g' =>
                have hnot : lib.isNumeric b = false := isNumeric_of_space hlib hhead
                rw [List.flatten_cons, List.cons_append, allNumbers_append hnot,
                  allNumbers_cons_of_not hnot]

theorem uniform_of_chain {r : Bool} {g : Str} {c : Char}
    (h : (c :: g).IsChain fun a b => (isSpace a == isSpace b) = true) (hc : isSpace c = r) :
    ∀ d ∈ c :: g, isSpace d = r := by
  induction g generalizing c with
  | nil => simpa using hc
  | cons d g ih =>
      obtain ⟨hcd, htail⟩ := List.isChain_cons_cons.mp h
      have hd : isSpace d = r := hc ▸ (beq_iff_eq.mp hcd).symm
      exact List.forall_mem_cons.mpr ⟨hc, ih htail hd⟩

/-- The numbers of a text are those of its words. -/
theorem allNumbers_words (hlib : lib.TextLaws) (s : Str) :
    allNumbers lib s = s.words.flatMap (allNumbers lib) := by
  conv_lhs => rw [← List.flatten_splitBy (fun a b => isSpace a == isSpace b) s]
  refine allNumbers_groups hlib (fun g hg c hc d hd => ?_) (List.nil_notMem_splitBy _ s)
    (List.isChain_getLast_head_splitBy (fun a b => isSpace a == isSpace b) s)
  have hchain := List.isChain_of_mem_splitBy hg
  cases g with
  | nil => cases hc
  | cons e g =>
      have huniform := uniform_of_chain hchain rfl
      rw [huniform c hc, huniform d hd]

theorem allNumbers_join (hlib : lib.TextLaws) (ws : List Str) :
    allNumbers lib (Str.join [' '] ws) = ws.flatMap (allNumbers lib) := by
  have hspace := isNumeric_of_space hlib (show isSpace ' ' = true by decide)
  induction ws with
  | nil => rfl
  | cons w ws ih =>
      cases ws with
      | nil => simp [Str.join]
      | cons v ws =>
          rw [List.flatMap_cons, ← ih, ← allNumbers_append hspace]
          simp [Str.join, List.intercalate_cons_cons]

/-- **A text states the same numbers with other white space.** -/
theorem numbersIn_join_words (hlib : lib.TextLaws) (s : Str) :
    numbersIn lib (Str.join [' '] s.words) = numbersIn lib s :=
  numbersIn_congr ((allNumbers_join hlib s.words).trans (allNumbers_words hlib s).symm)

end HorizonRelay
