import HorizonRelay.Lib.JsonGrammar
import HorizonRelay.Policy

/-!
# Searching a JSON text for a field

A pattern stands in for the reader: the key between quotes, a colon, and what is looked for
after it.  It passes over numbers, words and strings of other fields, because a quote in a
string follows a backslash and no colon follows a value.

## Main definitions

* `WordKey` — the keys that are searched for.
* `NoBare` — a text whose quotes all follow a backslash.
* `keyPattern` — a key, a colon and a pattern after it.

## Main results

* `search_plain`, `search_quoted` — what the search does at a text without quotes, and at a
  string.
* `search_member` — what it does at a member.
-/

namespace HorizonRelay

open Py Py.JsonText

/-- A letter or an underscore. -/
def isWordChar (c : Char) : Bool := ('a' ≤ c && c ≤ 'z') || c = '_'

/-- A key of lower-case letters and underscores. -/
structure WordKey (key : Str) : Prop where
  ne_nil : key ≠ []
  all : ∀ c ∈ key, isWordChar c = true

/-- Every quote follows a backslash. -/
def NoBare (s : Str) : Prop := ∀ pre post, s = pre ++ '"' :: post → ∃ pre', pre = pre' ++ ['\\']

/-- What follows a colon, with the white space around it. -/
def pastColon (s : Str) : Option Str :=
  match s.dropWhile isSpace with
  | ':' :: rest => some (rest.dropWhile isSpace)
  | _ => none

/-- A key, a colon, and a pattern after it. -/
def keyPattern {α : Type} (key : Str) (p : Str → Option α) (s : Str) : Option α :=
  (afterKey key s).bind p

theorem WordKey.not_mem {key : Str} (hk : WordKey key) {c : Char} (hc : isWordChar c = false) :
    c ∉ key := by
  intro h
  rw [hk.all c h] at hc
  cases hc

/-! ## The pattern at one place -/

/-- No key begins but at a quote. -/
theorem afterKey_of_ne {key : Str} {s : Str} (h : ∀ c ∈ s.head?, c ≠ '"') :
    afterKey key s = none := by
  unfold afterKey fieldValue
  cases s with
  | nil => rfl
  | cons c s =>
      have hc : ('"' == c) = false := by simpa using (h c rfl).symm
      simp [List.isPrefixOf, hc]

theorem pastColon_eq_none {s : Str} (h : ∀ r, s.dropWhile isSpace ≠ ':' :: r) :
    pastColon s = none := by
  unfold pastColon
  split
  · rename_i heq
    exact absurd heq (h _)
  · rfl

theorem afterKey_quote (key s : Str) : afterKey key ('"' :: s) =
    if (key ++ ['"']).isPrefixOf s then pastColon (s.drop (key.length + 1)) else none := by
  unfold afterKey fieldValue
  simp only [List.cons_append, List.isPrefixOf, beq_self_eq_true, Bool.true_and,
    List.length_cons, List.length_append, List.length_nil, List.drop_succ_cons]
  split
  · cases hrest : (s.drop (key.length + 1)).dropWhile isSpace with
    | nil => simp [pastColon, hrest]
    | cons c rest =>
        by_cases hc : c = ':'
        · subst hc
          simp [pastColon, hrest]
        · have hno : ∀ r, c :: rest ≠ ':' :: r := fun r h => hc (List.cons.inj h).1
          rw [pastColon_eq_none (by rwa [hrest])]
          split
          · rename_i heq
            exact absurd heq (hno _)
          · rfl
  · rfl

/-- A string begins the pattern only if it is the key. -/
theorem afterKey_quoted {key x : Str} (hk : WordKey key) (hx : NoBare x) (r : Str) :
    afterKey key ('"' :: (x ++ '"' :: r)) = if x = key then pastColon r else none := by
  rw [afterKey_quote]
  by_cases h : x = key
  · subst h
    have hpre : (x ++ ['"']).isPrefixOf (x ++ '"' :: r) = true :=
      List.isPrefixOf_iff_prefix.mpr ⟨r, by simp⟩
    have hdrop : (x ++ '"' :: r).drop (x.length + 1) = r := by
      rw [← List.drop_drop, List.drop_left]
      rfl
    rw [if_pos hpre, if_pos rfl, hdrop]
  · rw [if_neg h, if_neg]
    intro hpre
    obtain ⟨t, ht⟩ := List.isPrefixOf_iff_prefix.mp hpre
    rw [List.append_assoc] at ht
    rcases List.append_eq_append_iff.mp ht with ⟨a, rfl, ha⟩ | ⟨a, rfl, ha⟩
    · cases a with
      | nil => exact h (List.append_nil key)
      | cons d a =>
          -- a quote in the string would follow the key's last letter
          obtain rfl : '"' = d := (List.cons.inj ha).1
          obtain ⟨pre, hpre'⟩ := hx key a rfl
          exact hk.not_mem (by decide : isWordChar '\\' = false) (by rw [hpre']; simp)
    · cases a with
      | nil => exact h (List.append_nil x).symm
      | cons d a =>
          obtain rfl : '"' = d := (List.cons.inj ha).1
          exact hk.not_mem (by decide : isWordChar '"' = false) (by simp)

/-- The quote that ends a string begins no pattern. -/
theorem afterKey_closing {key r : Str} (hk : WordKey key)
    (hr : ∀ c ∈ r.head?, isWordChar c = false) : afterKey key ('"' :: r) = none := by
  rw [afterKey_quote, if_neg]
  intro hpre
  obtain ⟨t, rfl⟩ := List.isPrefixOf_iff_prefix.mp hpre
  obtain ⟨c, key', rfl⟩ := List.exists_cons_of_ne_nil hk.ne_nil
  have hc := hr c rfl
  rw [hk.all c (by simp)] at hc
  cases hc

/-! ## The search -/

section Search
variable {α : Type} {key : Str} {p : Str → Option α}

/-- A text where nothing is found is passed over. -/
theorem searchText_skip {q : Str → Option α} {s r : Str}
    (h : ∀ t, t ≠ [] → t <:+ s → q (t ++ r) = none) : searchText q (s ++ r) = searchText q r := by
  induction s with
  | nil => rfl
  | cons c s ih =>
      have hhere := h (c :: s) (List.cons_ne_nil _ _) List.suffix_rfl
      rw [List.cons_append, searchText, ← List.cons_append, hhere, Option.none_or]
      exact ih fun t hne ht => h t hne (ht.trans (List.suffix_cons c s))

/-- A text without quotes is passed over. -/
theorem search_plain {s : Str} (hs : '"' ∉ s) (r : Str) :
    searchText (keyPattern key p) (s ++ r) = searchText (keyPattern key p) r := by
  refine searchText_skip fun t hne ht => ?_
  obtain ⟨c, t, rfl⟩ := List.exists_cons_of_ne_nil hne
  have hc : c ≠ '"' := by
    rintro rfl
    exact hs (ht.subset (by simp))
  rw [keyPattern, afterKey_of_ne (by simpa using hc)]
  rfl

/-- What is found at a string, or after it. -/
theorem search_quoted {x r : Str} (hk : WordKey key) (hx : NoBare x)
    (hr : pastColon r = none ∨ '"' ∉ x) (hhead : ∀ c ∈ r.head?, isWordChar c = false) :
    searchText (keyPattern key p) ('"' :: (x ++ '"' :: r)) =
      (if x = key then (pastColon r).bind p else none).or (searchText (keyPattern key p) r) := by
  have hclose : searchText (keyPattern key p) ('"' :: r) = searchText (keyPattern key p) r := by
    rw [searchText, keyPattern, afterKey_closing hk hhead]
    rfl
  have hinside : searchText (keyPattern key p) (x ++ '"' :: r) =
      searchText (keyPattern key p) ('"' :: r) := by
    refine searchText_skip fun t hne ht => ?_
    obtain ⟨c, t, rfl⟩ := List.exists_cons_of_ne_nil hne
    by_cases hc : c = '"'
    · subst hc
      obtain ⟨pre, hpre⟩ := ht
      have ht' : NoBare t := by
        rintro pre' post rfl
        obtain ⟨pre'', h⟩ := hx (pre ++ '"' :: pre') post (by rw [← hpre]; simp)
        cases pre' using List.reverseRecOn with
        | nil =>
            have := (List.append_inj' h rfl).2
            simp at this
        | append_singleton pre' d _ =>
            rw [← List.cons_append, ← List.append_assoc] at h
            have := (List.append_inj' h rfl).2
            exact ⟨pre', by rw [this]⟩
      rw [keyPattern, List.cons_append, afterKey_quoted hk ht']
      rcases hr with hr | hr
      · rw [hr]
        split <;> rfl
      · exact absurd (by rw [← hpre]; simp) hr
    · rw [keyPattern, afterKey_of_ne (by simpa using hc)]
      rfl
  rw [searchText, hinside, hclose, keyPattern, afterKey_quoted hk hx]
  split <;> rfl

end Search

/-! ## JSON texts -/

theorem isSpace_of_isBlank {c : Char} (h : isBlank c = true) : isSpace c = true := by
  simp only [isBlank, Bool.or_eq_true, decide_eq_true_eq] at h
  rcases h with ((rfl | rfl) | rfl) | rfl <;> decide

theorem noBare_of_not_mem {s : Str} (h : '"' ∉ s) : NoBare s := by
  rintro pre post rfl
  exact absurd (by simp) h

theorem NoBare.append {s t : Str} (hs : NoBare s) (ht : NoBare t) : NoBare (s ++ t) := by
  intro pre post h
  rcases List.append_eq_append_iff.mp h with ⟨a, rfl, ha⟩ | ⟨a, rfl, ha⟩
  · obtain ⟨pre', rfl⟩ := ht a post ha
    exact ⟨s ++ pre', (List.append_assoc s pre' _).symm⟩
  · cases a with
    | nil =>
        obtain ⟨pre', hpre⟩ := ht [] post ha.symm
        exact absurd (congrArg List.length hpre) (by simp)
    | cons d a =>
        obtain rfl : '"' = d := (List.cons.inj ha).1
        exact hs pre a rfl

/-- What is no hexadecimal digit is not among four of them. -/
theorem not_mem_of_hex4 {ds : Str} {n : ℕ} (h : hex4 ds = some (n, [])) {x : Char}
    (hx : hexDigit x = none) : x ∉ ds := by
  match ds, h with
  | a :: b :: c :: d :: ds', h =>
      simp only [hex4, Option.bind_eq_bind, Option.bind_eq_some_iff, Option.pure_def,
        Option.some.injEq, Prod.mk.injEq] at h
      obtain ⟨a', ha, b', hb, c', hc, d', hd, -, rfl⟩ := h
      have hne : ∀ {e : Char} {k : ℕ}, hexDigit e = some k → x ≠ e := by
        rintro e k he rfl
        rw [hx] at he
        cases he
      simp [hne ha, hne hb, hne hc, hne hd]

theorem noBare_text (c : StrChar) : NoBare c.text := by
  cases c with
  | raw c h => exact noBare_of_not_mem (by simpa [StrChar.text] using h.2.1.symm)
  | letter c d h =>
      intro pre post heq
      cases pre with
      | nil =>
          rw [StrChar.text, List.nil_append, List.cons.injEq] at heq
          exact absurd heq.1 (by decide)
      | cons e pre =>
          rw [StrChar.text, List.cons_append, List.cons.injEq] at heq
          obtain ⟨rfl, heq⟩ := heq
          cases pre with
          | nil => exact ⟨[], rfl⟩
          | cons e pre => simp at heq
  | code ds n h hn =>
      refine noBare_of_not_mem ?_
      simpa [StrChar.text] using not_mem_of_hex4 h (by decide : hexDigit '"' = none)
  | pair hs ls n m hh hl hn hm =>
      refine noBare_of_not_mem ?_
      have hquote : hexDigit '"' = none := by decide
      simpa [StrChar.text] using ⟨not_mem_of_hex4 hh hquote, not_mem_of_hex4 hl hquote⟩

/-- In a string every quote is escaped. -/
theorem noBare_bodyText (cs : List StrChar) : NoBare (bodyText cs) := by
  induction cs with
  | nil => exact noBare_of_not_mem (by simp)
  | cons c cs ih => exact (noBare_text c).append ih

/-- After white space and another mark there is no colon. -/
theorem pastColon_blank {w r : Str} {c : Char} (hw : Blank w) (hc : c ≠ ':')
    (hs : isSpace c = false) : pastColon (w ++ c :: r) = none := by
  have hdrop : (w ++ c :: r).dropWhile isSpace = c :: r := by
    rw [List.dropWhile_append_of_pos fun d hd => isSpace_of_isBlank (hw d hd),
      List.dropWhile_cons_of_neg (by simp [hs])]
  refine pastColon_eq_none fun r' h => ?_
  rw [hdrop] at h
  exact hc (List.cons.inj h).1

/-- After white space and a colon comes what follows. -/
theorem pastColon_colon {w w' v : Str} (hw : Blank w) (hw' : Blank w')
    (hv : ∀ c ∈ v.head?, isSpace c = false) : pastColon (w ++ ':' :: (w' ++ v)) = some v := by
  have hdrop : (w ++ ':' :: (w' ++ v)).dropWhile isSpace = ':' :: (w' ++ v) := by
    rw [List.dropWhile_append_of_pos fun d hd => isSpace_of_isBlank (hw d hd)]
    rfl
  unfold pastColon
  rw [hdrop]
  exact congrArg some (takeWhile_append_of_head (fun c hc => isSpace_of_isBlank (hw' c hc)) hv).2

theorem blank_head {w r : Str} {c : Char} (hw : Blank w) (hc : isWordChar c = false) :
    ∀ d ∈ (w ++ c :: r).head?, isWordChar d = false := by
  intro d hd
  cases w with
  | nil =>
      obtain rfl : c = d := by simpa using hd
      exact hc
  | cons e w =>
      obtain rfl : e = d := by simpa using hd
      have he := hw e (by simp)
      simp only [isBlank, Bool.or_eq_true, decide_eq_true_eq] at he
      rcases he with ((rfl | rfl) | rfl) | rfl <;> decide

theorem not_mem_blank {w : Str} (hw : Blank w) : '"' ∉ w := fun h => by
  have := hw _ h
  revert this
  decide

/-- A value that a search passes over, where no colon follows. -/
def PassedOver (v : Str) : Prop :=
  ∀ {α : Type} {key : Str} (p : Str → Option α), WordKey key → ∀ {r : Str}, pastColon r = none →
    (∀ c ∈ r.head?, isWordChar c = false) →
      searchText (keyPattern key p) (v ++ r) = searchText (keyPattern key p) r

theorem passedOver_plain {v : Str} (hv : '"' ∉ v) : PassedOver v :=
  fun _ _ _ _ _ => search_plain hv _

theorem passedOver_quoted (cs : List StrChar) : PassedOver (quoted cs) := by
  intro α key p hk r hr hhead
  rw [quoted_append, search_quoted hk (noBare_bodyText cs) (.inl hr) hhead, hr]
  split <;> rfl

/-- What is found at a member whose key is spelled as it is, or after it. -/
theorem search_member {α : Type} {key key' : Str} {p : Str → Option α} (hk : WordKey key)
    (hk' : WordKey key') {cs : List StrChar} (hcs : bodyText cs = key') {w w' v r : Str}
    (hw : Blank w) (hw' : Blank w') (hv : ∀ c ∈ (v ++ r).head?, isSpace c = false) :
    searchText (keyPattern key p) (memberText cs w w' v ++ r) =
      (if key' = key then p (v ++ r) else none).or (searchText (keyPattern key p) (v ++ r)) := by
  have htext : memberText cs w w' v ++ r =
      '"' :: (key' ++ '"' :: (w ++ ':' :: (w' ++ (v ++ r)))) := by
    simp [memberText, quoted_append, hcs, List.append_assoc]
  have hquote : '"' ∉ key' := hk'.not_mem (by decide)
  have hgap : searchText (keyPattern key p) (w ++ ':' :: (w' ++ (v ++ r))) =
      searchText (keyPattern key p) (v ++ r) := by
    have hplain : '"' ∉ w ++ ':' :: w' := by
      simp [not_mem_blank hw, not_mem_blank hw']
    rw [← search_plain hplain (v ++ r), List.append_assoc, List.cons_append]
  rw [htext, search_quoted hk (noBare_of_not_mem hquote) (.inr hquote) (blank_head hw (by decide)),
    pastColon_colon hw hw' hv, hgap]
  rfl

end HorizonRelay
