import HorizonRelay.Policy.SolverReply
import HorizonRelay.Providers.Live

/-!
# The tokens of the answer

A reply is free reasoning, a marker and a JSON object with the answer.  One search over the
whole text finds where the answer begins, and a scan where it ends; the tokens that overlap
this span are summarized.

## Main definitions

* `AnswerReply` — such a reply, as it is spelled.
* `AnswerReply.SelectsAnswer` — the tokens of the answer are selected, however it is cut.
* `AnswerReply.Located` — the replies for which the search finds the answer.

## Main results

* `fieldValue_eq_some_iff`, `findField_eq_some_iff` — what the search finds.
* `cuts_agree_iff` — a span is known by the tokens that overlap it.
* `AnswerReply.selectsAnswer_iff` — the tokens of the answer are selected for these replies
  and for no others.
-/

namespace HorizonRelay

open Py Py.JsonText

/-! ## The search for a field -/

/-- A key, a colon and what follows, with the white space between. -/
def fieldText (field gap gap' rest : Str) : Str :=
  '"' :: (field ++ '"' :: (gap ++ ':' :: (gap' ++ rest)))

/-- `"field"\s*:` stands at the front of a text. -/
def BeginsField (field s : Str) : Prop :=
  ∃ gap rest, (∀ c ∈ gap, isSpace c = true) ∧ s = fieldText field gap [] rest

theorem head_dropWhile (s : Str) : ∀ c ∈ (s.dropWhile isSpace).head?, isSpace c = false := by
  intro c hc
  have h := List.head?_dropWhile_not isSpace s
  rw [hc] at h
  simpa using h

theorem forall_mem_takeWhile (s : Str) : ∀ c ∈ s.takeWhile isSpace, isSpace c = true :=
  fun _ hc => List.mem_takeWhile_imp hc

/-- What the pattern finds at the front of a text. -/
theorem fieldValue_eq_some_iff {field s rest : Str} {i j : ℕ} :
    fieldValue field s i = some (rest, j) ↔
      ∃ gap gap', (∀ c ∈ gap, isSpace c = true) ∧ (∀ c ∈ gap', isSpace c = true) ∧
        (∀ c ∈ rest.head?, isSpace c = false) ∧ s = fieldText field gap gap' rest ∧
          j = i + (field.length + 2) + gap.length + 1 + gap'.length := by
  have hkey : ∀ t, ('"' :: field ++ ['"']) ++ t = '"' :: (field ++ '"' :: t) := by simp
  have hlen : ('"' :: field ++ ['"']).length = field.length + 2 := by simp
  constructor
  · intro h
    unfold fieldValue at h
    dsimp only at h
    split at h
    · rename_i hpre
      obtain ⟨t, rfl⟩ := List.isPrefixOf_iff_prefix.mp hpre
      rw [List.drop_left] at h
      split at h
      · rename_i rest' hrest
        obtain ⟨rfl, rfl⟩ := Prod.mk.inj (Option.some.inj h)
        refine ⟨t.takeWhile isSpace, rest'.takeWhile isSpace, forall_mem_takeWhile t,
          forall_mem_takeWhile rest', head_dropWhile rest', ?_, by rw [hlen]⟩
        rw [fieldText, List.takeWhile_append_dropWhile, ← hrest, List.takeWhile_append_dropWhile,
          hkey]
      · cases h
    · cases h
  · rintro ⟨gap, gap', hgap, hgap', hrest, rfl, rfl⟩
    have hcolon : ∀ c ∈ (':' :: (gap' ++ rest)).head?, isSpace c = false := by
      intro c hc
      obtain rfl : ':' = c := by simpa using hc
      decide
    obtain ⟨htake, hdrop⟩ := takeWhile_append_of_head hgap hcolon
    obtain ⟨htake', hdrop'⟩ := takeWhile_append_of_head hgap' hrest
    unfold fieldValue fieldText
    rw [← hkey, if_pos (isPrefixOf_append _ _), List.drop_left]
    simp only [htake, hdrop, htake', hdrop', hlen]

/-- Whether the pattern matches does not depend on where the text stands. -/
theorem fieldValue_eq_none_iff {field s : Str} {i : ℕ} :
    fieldValue field s i = none ↔ ¬ BeginsField field s := by
  rw [← not_iff_not, not_not, ← ne_eq, Option.ne_none_iff_exists']
  constructor
  · rintro ⟨⟨rest, j⟩, h⟩
    obtain ⟨gap, gap', hgap, -, -, hs, -⟩ := fieldValue_eq_some_iff.mp h
    exact ⟨gap, gap' ++ rest, hgap, hs⟩
  · rintro ⟨gap, rest, hgap, rfl⟩
    refine ⟨(rest.dropWhile isSpace, _), fieldValue_eq_some_iff.mpr
      ⟨gap, rest.takeWhile isSpace, hgap, forall_mem_takeWhile rest, head_dropWhile rest, ?_, rfl⟩⟩
    rw [fieldText, fieldText, List.takeWhile_append_dropWhile, List.nil_append]

/-- No field begins in a text, when `rest` follows it. -/
def NoField (field s rest : Str) : Prop :=
  ∀ x y, s = x ++ y → y ≠ [] → ¬ BeginsField field (y ++ rest)

/-- The search finds the first place where the pattern matches. -/
theorem findField_eq_some_iff {field s rest : Str} {i j : ℕ} :
    findField field s i = some (rest, j) ↔
      ∃ p q, s = p ++ q ∧ NoField field p q ∧
        fieldValue field q (i + p.length) = some (rest, j) := by
  induction s generalizing i with
  | nil =>
      constructor
      · intro h
        exact ⟨[], [], rfl, fun x y hxy hy => absurd (List.append_eq_nil_iff.mp hxy.symm).2 hy, h⟩
      · rintro ⟨p, q, hpq, -, h⟩
        obtain ⟨rfl, rfl⟩ := List.append_eq_nil_iff.mp hpq.symm
        exact h
  | cons c s ih =>
      rw [findField, Option.or_eq_some_iff, ih, fieldValue_eq_none_iff]
      constructor
      · rintro (h | ⟨hnone, p, q, rfl, hp, h⟩)
        · exact ⟨[], c :: s, rfl,
            fun x y hxy hy => absurd (List.append_eq_nil_iff.mp hxy.symm).2 hy, h⟩
        · refine ⟨c :: p, q, rfl, ?_, ?_⟩
          · intro x y hxy hy
            cases x with
            | nil =>
                obtain rfl : c :: p = y := hxy
                exact hnone
            | cons d x => exact hp x y (List.cons.inj hxy).2 hy
          · rwa [List.length_cons, ← Nat.add_assoc, Nat.add_right_comm]
      · rintro ⟨p, q, hpq, hp, h⟩
        cases p with
        | nil =>
            obtain rfl : c :: s = q := hpq
            exact .inl h
        | cons d p =>
            obtain ⟨rfl, rfl⟩ := List.cons.inj hpq
            refine .inr ⟨hp [] _ rfl (List.cons_ne_nil _ _), p, q, rfl, ?_, ?_⟩
            · intro x y hxy hy
              exact hp (c :: x) y (by rw [hxy]; rfl) hy
            · rwa [List.length_cons, ← Nat.add_assoc, Nat.add_right_comm] at h

/-- The scan for the closing quote steps over a text without quotes and backslashes. -/
theorem closingQuote_append {s : Str} (hs : '"' ∉ s ∧ '\\' ∉ s) (t : Str) (i : ℕ) :
    closingQuote (s ++ t) i = closingQuote t (i + s.length) := by
  induction s generalizing i with
  | nil => rfl
  | cons c s ih =>
      simp only [List.mem_cons, not_or] at hs
      rw [List.cons_append, closingQuote, if_neg (Ne.symm hs.1.1), ih ⟨hs.1.2, hs.2.2⟩,
        List.length_cons]
      · congr 1
        omega
      · exact fun h _ => hs.2.1 h.symm
      · exact fun d rest h _ => hs.2.1 h.symm

theorem closingQuote_escape (c : Char) (t : Str) (i : ℕ) :
    closingQuote ('\\' :: c :: t) i = closingQuote t (i + 2) := by
  rw [closingQuote]

/-- The scan stops at the closing quote of a spelled string. -/
theorem closingQuote_bodyText (cs : List StrChar) (r : Str) (i : ℕ) :
    closingQuote (bodyText cs ++ '"' :: r) i = i + (bodyText cs).length := by
  have hquote : hexDigit '"' = none := by decide
  have hslash : hexDigit '\\' = none := by decide
  induction cs generalizing i with
  | nil =>
      rw [bodyText_nil, List.nil_append, closingQuote, if_pos rfl]
      · rfl
      · simp
      · simp
  | cons c cs ih =>
      rw [bodyText_cons, List.append_assoc, List.length_append]
      cases c with
      | raw c h =>
          have hplain : '"' ∉ [c] ∧ '\\' ∉ [c] := by simp [h.2.1.symm, h.2.2.symm]
          rw [StrChar.text, closingQuote_append hplain, ih]
          omega
      | letter c d h =>
          rw [StrChar.text, List.cons_append, List.cons_append, List.nil_append,
            closingQuote_escape, ih, List.length_cons, List.length_singleton]
          omega
      | code ds n h hn =>
          rw [StrChar.text, List.cons_append, List.cons_append, closingQuote_escape,
            closingQuote_append ⟨not_mem_of_hex4 h hquote, not_mem_of_hex4 h hslash⟩, ih,
            List.length_cons, List.length_cons]
          omega
      | pair hs ls n m hh hl hn hm =>
          rw [StrChar.text, List.cons_append, List.cons_append, List.append_assoc,
            List.cons_append, List.cons_append, closingQuote_escape,
            closingQuote_append ⟨not_mem_of_hex4 hh hquote, not_mem_of_hex4 hh hslash⟩,
            List.cons_append, closingQuote_escape,
            closingQuote_append ⟨not_mem_of_hex4 hl hquote, not_mem_of_hex4 hl hslash⟩, ih]
          simp only [List.length_cons, List.length_append]
          omega

/-! ## Spans and cuts -/

/-- A token that is not blank. -/
def isVisible (t : Token) : Bool := !t.t.strip.isEmpty

/-- The visible tokens that overlap a span of characters. -/
def overlapping (tokens : List Token) (span : ℕ × ℕ) : List Token :=
  ((tokenOffsets tokens 0).filter fun (t, a, b) =>
    a < span.2 && span.1 < b && isVisible t).map Prod.fst

/-- The tokens `answer_token_stats` summarizes. -/
def selectedTokens (tokens : List Token) (field : Str) : List Token :=
  match valueSpan (tokens.map Token.t).flatten field with
  | some span => overlapping tokens span
  | none => tokens.filter isVisible

/-- The summary of these tokens. -/
def summarize (lib : StdLib) (spanFound : Bool) (chosen : List Token) : Option TokenStats :=
  match chosen with
  | [] => none
  | first :: rest =>
      let n : ℚ := chosen.length
      let meanLp := (chosen.map Token.lp).sum / n
      let weakest := rest.foldl (fun w t => if t.lp < w.lp then t else w) first
      some {
        spanFound
        count := chosen.length
        meanLogprob := roundTo 4 meanLp
        prob := roundTo 4 (lib.exp meanLp)
        hesitation := roundTo 4 ((chosen.countP fun t => lib.exp t.lp < 1 / 2) / n)
        minToken := weakest.t }

theorem answerTokenStats_eq (lib : StdLib) (tokens : List Token) (field : Str) :
    answerTokenStats lib tokens field =
      summarize lib (valueSpan (tokens.map Token.t).flatten field).isSome
        (selectedTokens tokens field) := by
  unfold answerTokenStats selectedTokens
  dsimp only
  cases valueSpan (tokens.map Token.t).flatten field <;> rfl

theorem isVisible_iff {t : Token} : isVisible t = true ↔ ∃ c ∈ t.t, isSpace c = false := by
  have h := Str.strip_eq_nil_iff (s := t.t)
  rw [← not_iff_not] at h
  simpa [isVisible] using h

/-- A text in two tokens. -/
def cut (text : Str) (n : ℕ) : List Token := [⟨text.take n, 0⟩, ⟨text.drop n, 1⟩]

theorem flatten_cut (text : Str) (n : ℕ) : ((cut text n).map Token.t).flatten = text := by
  simp [cut]

theorem first_mem_overlapping {text : Str} {n : ℕ} (hn : n ≤ text.length) {s : ℕ × ℕ} :
    (⟨text.take n, 0⟩ : Token) ∈ overlapping (cut text n) s ↔
      0 < s.2 ∧ s.1 < n ∧ ∃ c ∈ text.take n, isSpace c = false := by
  rw [← isVisible_iff (t := ⟨text.take n, 0⟩)]
  simp [overlapping, cut, tokenOffsets, min_eq_left hn, and_assoc]

theorem second_mem_overlapping {text : Str} {n : ℕ} (hn : n ≤ text.length) {s : ℕ × ℕ} :
    (⟨text.drop n, 1⟩ : Token) ∈ overlapping (cut text n) s ↔
      n < s.2 ∧ s.1 < text.length ∧ ∃ c ∈ text.drop n, isSpace c = false := by
  rw [← isVisible_iff (t := ⟨text.drop n, 1⟩)]
  simp [overlapping, cut, tokenOffsets, min_eq_left hn, Nat.add_sub_cancel' hn, and_assoc]

/-- Spans that the same tokens overlap, however the text is cut, are the same. -/
theorem span_eq_of_cuts {text : Str} {s s' : ℕ × ℕ}
    (h : ∀ n ≤ text.length, overlapping (cut text n) s = overlapping (cut text n) s')
    (hs : 0 < s.2) (hlt : s'.1 < text.length) (hle : s'.2 ≤ text.length) (hpos : 0 < s'.2)
    (hbefore : ∃ c ∈ text.take s'.1, isSpace c = false)
    (hafter : ∃ c ∈ text.drop s'.2, isSpace c = false) : s = s' := by
  have hfirst : s.1 = s'.1 := by
    rcases lt_trichotomy s.1 s'.1 with hlo | hlo | hlo
    · have hn := first_mem_overlapping hlt.le (s := s)
      rw [h _ hlt.le, first_mem_overlapping hlt.le] at hn
      exact absurd (hn.mpr ⟨hs, hlo, hbefore⟩).2.1 (lt_irrefl _)
    · exact hlo
    · have hn : min s.1 text.length ≤ text.length := min_le_right _ _
      obtain ⟨c, hc, hspace⟩ := hbefore
      have hmem : c ∈ text.take (min s.1 text.length) :=
        (List.take_prefix_take_left (le_min hlo.le hlt.le)).subset hc
      have hcut := first_mem_overlapping hn (s := s)
      rw [h _ hn, first_mem_overlapping hn] at hcut
      have := (hcut.mp ⟨hpos, lt_min hlo hlt, c, hmem, hspace⟩).2.1
      omega
  have hsecond : s.2 = s'.2 := by
    rcases lt_trichotomy s.2 s'.2 with hhi | hhi | hhi
    · have hn : s.2 ≤ text.length := hhi.le.trans hle
      obtain ⟨c, hc, hspace⟩ := hafter
      have hmem : c ∈ text.drop s.2 := by
        have hsplit : text.drop s'.2 = (text.drop s.2).drop (s'.2 - s.2) := by
          rw [List.drop_drop, Nat.add_sub_cancel' hhi.le]
        rw [hsplit] at hc
        exact List.mem_of_mem_drop hc
      have hcut := second_mem_overlapping hn (s := s)
      rw [h _ hn, second_mem_overlapping hn] at hcut
      exact absurd (hcut.mp ⟨hhi, hlt, c, hmem, hspace⟩).1 (lt_irrefl _)
    · exact hhi
    · have hcut := second_mem_overlapping hle (s := s)
      rw [h _ hle, second_mem_overlapping hle] at hcut
      exact absurd (hcut.mpr ⟨hhi, hfirst ▸ hlt, hafter⟩).1 (lt_irrefl _)
  exact Prod.ext hfirst hsecond

/-! ## Replies -/

/-- A member of an object, as it is spelled. -/
structure Member : Type where
  key : List StrChar
  text : Str
  value : Json
  gaps : Gaps
  spells : Spells text (.value value)

/-- The member with the white space around it. -/
def Member.spelled (m : Member) : Str := m.gaps.member m.key m.text

/-- A string or a number, as it is spelled. -/
inductive AnswerText : Type
  | string (cs : List StrChar)
  | number (k : Number)

namespace AnswerText

def text : AnswerText → Str
  | string cs => quoted cs
  | number k => k.text

def json : AnswerText → Json
  | string cs => .str (bodyValue cs)
  | number k => k.parts.json

/-- Where its value stands, without quotes, when its text begins at `start`. -/
def span (start : ℕ) : AnswerText → ℕ × ℕ
  | string cs => (start + 1, start + 1 + (bodyText cs).length)
  | number k => (start, start + k.text.length)

theorem spells (a : AnswerText) : Spells a.text (.value a.json) := by
  cases a with
  | string cs => exact .string cs
  | number k => exact .number k

end AnswerText

/-- Reasoning, a marker and an object with the answer.  Of several members with this key the
last one counts, so no later member has it. -/
structure AnswerReply : Type where
  reasoning : Str
  marker : Str
  marker_mem : IsMarker marker
  lead : Str
  earlier : List Member
  key : List StrChar
  answer : AnswerText
  gaps : Gaps
  later : List Member
  trail : Str
  lead_blank : Blank lead
  trail_blank : Blank trail
  key_value : bodyValue key = "answer".toList
  later_other : ∀ m ∈ later, bodyValue m.key ≠ "answer".toList

namespace AnswerReply

/-- The members from the answer's on. -/
def members (r : AnswerReply) : Str :=
  r.gaps.before ++ (memberText r.key r.gaps.afterKey r.gaps.afterColon r.answer.text ++
    (r.gaps.after ++ (r.later.map fun m => ',' :: m.spelled).flatten))

/-- The object. -/
def object (r : AnswerReply) : Str :=
  '{' :: ((r.earlier.map fun m => m.spelled ++ [',']).flatten ++ r.members ++ ['}'])

/-- The whole text. -/
def text (r : AnswerReply) : Str :=
  r.reasoning ++ r.marker ++ (r.lead ++ (r.object ++ r.trail))

/-- What stands before the answer's key. -/
def before (r : AnswerReply) : Str :=
  r.reasoning ++ r.marker ++ r.lead ++
    '{' :: ((r.earlier.map fun m => m.spelled ++ [',']).flatten ++ r.gaps.before)

/-- What stands after the answer. -/
def after (r : AnswerReply) : Str :=
  r.gaps.after ++ ((r.later.map fun m => ',' :: m.spelled).flatten ++ '}' :: r.trail)

/-- What stands from the answer's key on. -/
def fromKey (r : AnswerReply) : Str :=
  memberText r.key r.gaps.afterKey r.gaps.afterColon (r.answer.text ++ r.after)

/-- The answer's key and colon, with the white space after each. -/
def keyText (r : AnswerReply) : Str :=
  quoted r.key ++ r.gaps.afterKey ++ ':' :: r.gaps.afterColon

/-- Where the answer stands. -/
def span (r : AnswerReply) : ℕ × ℕ := r.answer.span (r.before ++ r.keyText).length

theorem text_eq (r : AnswerReply) : r.text = r.before ++ r.fromKey := by
  simp [text, object, members, before, fromKey, after, memberText, List.append_assoc]

theorem fromKey_eq (r : AnswerReply) : r.fromKey = r.keyText ++ (r.answer.text ++ r.after) := by
  simp [fromKey, keyText, memberText, List.append_assoc]

/-- The members of the object, in their order. -/
def entries (r : AnswerReply) : List (Str × Json) :=
  (r.earlier.map fun m => (bodyValue m.key, m.value)) ++
    (bodyValue r.key, r.answer.json) :: r.later.map fun m => (bodyValue m.key, m.value)

theorem lists_later {u v : Str} {j : Json} (g : Gaps) (key : List StrChar)
    (hv : Spells v (.value j)) (hu : u = g.before ++ (memberText key g.afterKey g.afterColon v ++
      g.after)) (ms : List Member) :
    Lists (u ++ (ms.map fun m => ',' :: m.spelled).flatten)
      ((bodyValue key, j) :: ms.map fun m => (bodyValue m.key, m.value)) := by
  subst hu
  induction ms generalizing g key v j with
  | nil =>
      have h := lists_member g key hv
      simpa [Gaps.member] using h
  | cons m ms ih =>
      have h := lists_next g key hv (ih m.gaps m.key m.spells)
      simpa [Gaps.next, Member.spelled, Gaps.member, List.append_assoc] using h

theorem lists_earlier {t : Str} {fs : List (Str × Json)} (ht : Lists t fs) (ms : List Member) :
    Lists ((ms.map fun m => m.spelled ++ [',']).flatten ++ t)
      ((ms.map fun m => (bodyValue m.key, m.value)) ++ fs) := by
  induction ms with
  | nil => exact ht
  | cons m ms ih =>
      have h := lists_next m.gaps m.key m.spells ih
      simpa [Gaps.next, Member.spelled, Gaps.member, List.append_assoc] using h

/-- What follows the marker is read as an object with this answer. -/
theorem loads_object (r : AnswerReply) : ∃ fields,
    loads (r.lead ++ (r.object ++ r.trail)) = some (.obj fields) ∧
      fields.lookup "answer".toList = some r.answer.json := by
  have hlists : Lists ((r.earlier.map fun m => m.spelled ++ [',']).flatten ++ r.members)
      r.entries := by
    have h := lists_earlier (lists_later r.gaps r.key r.answer.spells rfl r.later) r.earlier
    simpa only [members, entries, List.append_assoc] using h
  refine ⟨_, loads_of_spells r.lead_blank (spells_of_lists hlists) r.trail_blank, ?_⟩
  have hlater : "answer".toList ∉
      (r.later.map fun m => (bodyValue m.key, m.value)).map Prod.fst := by
    intro h
    obtain ⟨e, he, hkey⟩ := List.mem_map.mp h
    obtain ⟨m, hm, rfl⟩ := List.mem_map.mp he
    exact r.later_other m hm hkey
  rw [Dict.lookup_of_lawful, entries, r.key_value]
  exact Dict.get?_ofList_last _ r.answer.json hlater

/-- The tokens that overlap the answer are those that are summarized, however the text is
cut. -/
def SelectsAnswer (lib : StdLib) (r : AnswerReply) : Prop :=
  ∀ tokens : List Token, (tokens.map Token.t).flatten = r.text →
    selectedTokens tokens "answer".toList = overlapping tokens r.span ∧
      answerTokenStats lib tokens = summarize lib true (overlapping tokens r.span)

/-- The search finds the answer: its key is spelled as it is, no such key with a colon
begins before it, and a number is followed by a mark that ends it. -/
structure Located (r : AnswerReply) : Prop where
  key_plain : bodyText r.key = "answer".toList
  first : NoField "answer".toList r.before r.fromKey
  ends : ∀ k, r.answer = .number k → ∃ c ∈ r.after.head?, c = ',' ∨ c = '}' ∨ c = '\n'

end AnswerReply

/-- Where the value of the field that was found stands. -/
def spanOf (rest : Str) (start len : ℕ) : ℕ × ℕ :=
  match rest with
  | '"' :: rest => (start + 1, min (closingQuote rest (start + 1)) len)
  | rest => (start, start + (rest.takeWhile fun c => !(",\x7d\n".toList.contains c)).length)

theorem valueSpan_eq (text field : Str) : valueSpan text field =
    (findField field text 0).map fun (rest, start) => spanOf rest start text.length := by
  unfold valueSpan
  cases findField field text 0 with
  | none => rfl
  | some x => rfl

theorem spanOf_of_ne {rest : Str} (h : ∀ c ∈ rest.head?, c ≠ '"') (start len : ℕ) :
    spanOf rest start len =
      (start, start + (rest.takeWhile fun c => !(",\x7d\n".toList.contains c)).length) := by
  unfold spanOf
  split
  · exact absurd rfl (h '"' rfl)
  · rfl

/-- What the search finds, and where. -/
theorem valueSpan_eq_some_iff {text field : Str} {span : ℕ × ℕ} :
    valueSpan text field = some span ↔
      ∃ p gap gap' rest, (∀ c ∈ gap, isSpace c = true) ∧ (∀ c ∈ gap', isSpace c = true) ∧
        (∀ c ∈ rest.head?, isSpace c = false) ∧ text = p ++ fieldText field gap gap' rest ∧
          NoField field p (fieldText field gap gap' rest) ∧
            span = spanOf rest (p ++ fieldText field gap gap' []).length text.length := by
  have hlen : ∀ p gap gap' : Str, (p ++ fieldText field gap gap' []).length =
      0 + p.length + (field.length + 2) + gap.length + 1 + gap'.length := by
    intro p gap gap'
    simp only [fieldText, List.length_append, List.length_cons, List.length_nil]
    omega
  rw [valueSpan_eq, Option.map_eq_some_iff]
  constructor
  · rintro ⟨⟨rest, start⟩, hfind, rfl⟩
    obtain ⟨p, q, rfl, hp, hq⟩ := findField_eq_some_iff.mp hfind
    obtain ⟨gap, gap', hgap, hgap', hrest, rfl, rfl⟩ := fieldValue_eq_some_iff.mp hq
    exact ⟨p, gap, gap', rest, hgap, hgap', hrest, rfl, hp, by rw [hlen]⟩
  · rintro ⟨p, gap, gap', rest, hgap, hgap', hrest, rfl, hp, rfl⟩
    refine ⟨(rest, _), findField_eq_some_iff.mpr ⟨p, _, rfl, hp, fieldValue_eq_some_iff.mpr
      ⟨gap, gap', hgap, hgap', hrest, rfl, rfl⟩⟩, ?_⟩
    rw [hlen]

/-! ## Where the search ends -/

theorem append_cons_inj {α : Type} {a : α} {s t u v : List α} (hu : a ∉ u) (hv : a ∉ v)
    (h : s ++ a :: u = t ++ a :: v) : s = t ∧ u = v := by
  rcases List.append_eq_append_iff.mp h with ⟨w, rfl, hw⟩ | ⟨w, rfl, hw⟩
  · cases w with
    | nil => exact ⟨(List.append_nil s).symm, (List.cons.inj hw).2⟩
    | cons b w =>
        obtain ⟨rfl, rfl⟩ := List.cons.inj hw
        exact absurd (by simp) hu
  · cases w with
    | nil => exact ⟨List.append_nil t, (List.cons.inj hw).2.symm⟩
    | cons b w =>
        obtain ⟨rfl, rfl⟩ := List.cons.inj hw
        exact absurd (by simp) hv

/-- A text that ends with a colon and white space does not end with a quote. -/
theorem colon_ne_quote {s t w : Str} (hw : '"' ∉ w) : s ++ ':' :: w ≠ t ++ ['"'] := by
  intro h
  cases w using List.reverseRecOn with
  | nil =>
      have := (List.append_inj' h rfl).2
      simp at this
  | append_singleton w c _ =>
      rw [← List.cons_append, ← List.append_assoc] at h
      have := (List.append_inj' h rfl).2
      simp at this
      simp [this] at hw

theorem not_mem_spaces {w : Str} (hw : ∀ c ∈ w, isSpace c = true) {c : Char}
    (hc : isSpace c = false) : c ∉ w := by
  intro h
  rw [hw c h] at hc
  cases hc

/-- A quote in a string is escaped, so it and what follows are characters of the string. -/
theorem exists_of_bodyText {cs : List StrChar} {s t : Str} (h : bodyText cs = s ++ '"' :: t) :
    ∃ es, es.length < cs.length ∧ bodyText es = t := by
  induction cs generalizing s with
  | nil => simp at h
  | cons c cs ih =>
      rw [bodyText_cons] at h
      rcases List.append_eq_append_iff.mp h with ⟨w, rfl, hw⟩ | ⟨w, hcw, hw⟩
      · obtain ⟨es, hes, ht⟩ := ih hw
        exact ⟨es, Nat.lt_succ_of_lt hes, ht⟩
      · cases w with
        | nil =>
            obtain ⟨es, hes, ht⟩ := ih (s := []) hw.symm
            exact ⟨es, Nat.lt_succ_of_lt hes, ht⟩
        | cons d w =>
            obtain ⟨rfl, rfl⟩ := List.cons.inj hw
            -- in one character a quote stands only at the end
            cases c with
            | raw c hc =>
                have hquote : '"' ∈ [c] := by
                  rw [← show (StrChar.raw c hc).text = [c] from rfl, hcw]
                  simp
                exact absurd (List.mem_singleton.mp hquote).symm hc.2.1
            | letter c d hc =>
                have hlen := congrArg List.length hcw
                cases w with
                | nil => exact ⟨cs, Nat.lt_succ_self _, rfl⟩
                | cons e w =>
                    cases s with
                    | nil =>
                        have := (List.cons.inj hcw).1
                        exact absurd this (by decide)
                    | cons f s =>
                        simp [StrChar.text] at hlen
                        omega
            | code ds n hd hn =>
                have hquote : '"' ∈ (StrChar.code ds n hd hn).text := by
                  rw [hcw]
                  simp
                have := not_mem_of_hex4 hd (by decide : hexDigit '"' = none)
                simp [StrChar.text, this] at hquote
            | pair hs ls n m hh hl hn hm =>
                have hquote : '"' ∈ (StrChar.pair hs ls n m hh hl hn hm).text := by
                  rw [hcw]
                  simp
                have hhigh := not_mem_of_hex4 hh (by decide : hexDigit '"' = none)
                have hlow := not_mem_of_hex4 hl (by decide : hexDigit '"' = none)
                simp [StrChar.text, hhigh, hlow] at hquote

/-- Without a backslash every character of a string stands as it is. -/
theorem length_bodyText {cs : List StrChar} (h : '\\' ∉ bodyText cs) :
    (bodyText cs).length = cs.length := by
  induction cs with
  | nil => rfl
  | cons c cs ih =>
      rw [bodyText_cons, List.mem_append, not_or] at h
      rw [bodyText_cons, List.length_append, ih h.2, List.length_cons, Nat.add_comm]
      congr 1
      cases c with
      | raw c hc => rfl
      | _ => exact absurd (List.mem_cons_self ..) h.1

namespace AnswerText

theorem head (a : AnswerText) (r : Str) : ∀ c ∈ (a.text ++ r).head?, isSpace c = false := by
  have hvalue : ValueText a.text := by
    cases a with
    | string cs => exact valueText_quoted cs
    | number k => exact valueText_number k
  obtain ⟨c, t, ht, hc⟩ := hvalue.head
  rw [ht]
  simpa using hc

/-- The scan over a string ends with it. -/
theorem spanOf_string (cs : List StrChar) (r : Str) {start len : ℕ}
    (hlen : start + (quoted cs).length ≤ len) :
    spanOf ((string cs).text ++ r) start len = (string cs).span start := by
  have hle : start + 1 + (bodyText cs).length ≤ len := by
    simp only [quoted, List.length_append, List.length_cons, List.length_nil] at hlen
    omega
  rw [text, quoted_append]
  simp only [spanOf, span, closingQuote_bodyText, min_eq_left hle]

/-- The scan over a number ends with it when a mark that ends it follows. -/
theorem spanOf_number (k : Number) (r : Str) {start len : ℕ} (hr : r ≠ []) :
    spanOf ((number k).text ++ r) start len = (number k).span start ↔
      ∃ c ∈ r.head?, c = ',' ∨ c = '}' ∨ c = '\n' := by
  have hquote : ∀ c ∈ (k.text ++ r).head?, c ≠ '"' := by
    intro c hc
    obtain ⟨d, t, hd, hhead⟩ := k.exists_head
    rw [hd] at hc
    obtain rfl : d = c := by simpa using hc
    rintro rfl
    rcases hhead with h | h
    · exact absurd h (by decide)
    · exact absurd h (by decide)
  have hgo : ∀ c ∈ k.text, (!(",\x7d\n".toList.contains c)) = true := by
    intro c hc
    rcases k.mem_text hc with hdigit | hmark
    · have hall : "0123456789".toList.all (fun c => !(",\x7d\n".toList.contains c)) = true := by
        decide
      exact List.all_eq_true.mp hall c (digit_cases hdigit)
    · have hall : "-+.eE".toList.all (fun c => !(",\x7d\n".toList.contains c)) = true := by decide
      exact List.all_eq_true.mp hall c hmark
  obtain ⟨c, r, rfl⟩ := List.exists_cons_of_ne_nil hr
  have hstop : (",\x7d\n".toList.contains c) = true ↔ c = ',' ∨ c = '}' ∨ c = '\n' := by
    have hchars : ",\x7d\n".toList = [',', '}', '\n'] := rfl
    simp [hchars]
  have hlen : ((c :: r).takeWhile fun c => !(",\x7d\n".toList.contains c)).length = 0 ↔
      c = ',' ∨ c = '}' ∨ c = '\n' := by
    rw [← hstop, List.takeWhile_cons]
    cases ",\x7d\n".toList.contains c <;> simp
  rw [text, spanOf_of_ne hquote, span, List.takeWhile_append_of_pos hgo, Prod.mk.injEq,
    List.length_append]
  simp only [List.head?_cons, Option.mem_def, Option.some.injEq, exists_eq_left']
  rw [← hlen]
  constructor
  · rintro ⟨-, h⟩
    omega
  · intro h
    exact ⟨trivial, by rw [h, Nat.add_zero]⟩

end AnswerText

namespace AnswerReply

theorem keyText_plain {r : AnswerReply} (h : bodyText r.key = "answer".toList) :
    r.keyText = fieldText "answer".toList r.gaps.afterKey r.gaps.afterColon [] := by
  simp [keyText, fieldText, quoted, h]

theorem fieldText_append (field gap gap' rest : Str) :
    fieldText field gap gap' rest = fieldText field gap gap' [] ++ rest := by
  simp [fieldText]

theorem spaces_of_blank {w : Str} (hw : Blank w) : ∀ c ∈ w, isSpace c = true :=
  fun c hc => isSpace_of_isBlank (hw c hc)

theorem after_ne_nil (r : AnswerReply) : r.after ≠ [] := by simp [after]

theorem text_split (r : AnswerReply) :
    r.text = (r.before ++ r.keyText) ++ (r.answer.text ++ r.after) := by
  rw [text_eq, fromKey_eq, List.append_assoc]

/-- The scan from where the answer begins. -/
theorem spanOf_answer (r : AnswerReply) :
    spanOf (r.answer.text ++ r.after) (r.before ++ r.keyText).length r.text.length = r.span ↔
      ∀ k, r.answer = .number k → ∃ c ∈ r.after.head?, c = ',' ∨ c = '}' ∨ c = '\n' := by
  have hlen : (r.before ++ r.keyText).length + r.answer.text.length ≤ r.text.length := by
    rw [text_split]
    simp only [List.length_append]
    omega
  rw [span]
  cases ha : r.answer with
  | string cs =>
      rw [ha] at hlen
      rw [AnswerText.spanOf_string cs r.after hlen]
      simp
  | number k =>
      rw [AnswerText.spanOf_number k r.after r.after_ne_nil]
      simp

theorem valueSpan_of_located {r : AnswerReply} (h : r.Located) :
    valueSpan r.text "answer".toList = some r.span := by
  have hkey := fieldText_append "answer".toList r.gaps.afterKey r.gaps.afterColon
    (r.answer.text ++ r.after)
  rw [← keyText_plain h.key_plain, ← fromKey_eq] at hkey
  refine valueSpan_eq_some_iff.mpr ⟨r.before, r.gaps.afterKey, r.gaps.afterColon,
    r.answer.text ++ r.after, spaces_of_blank r.gaps.afterKey_blank,
    spaces_of_blank r.gaps.afterColon_blank, r.answer.head _, ?_, ?_, ?_⟩
  · rw [hkey, text_eq]
  · rw [hkey]
    exact h.first
  · rw [← keyText_plain h.key_plain]
    exact (r.spanOf_answer.mpr h.ends).symm

/-- Where the search ended the answer begins. -/
theorem start_eq {r : AnswerReply} {p gap gap' rest : Str} (hgap' : ∀ c ∈ gap', isSpace c = true)
    (htext : r.text = p ++ fieldText "answer".toList gap gap' rest)
    (hspan : r.span =
      spanOf rest (p ++ fieldText "answer".toList gap gap' []).length r.text.length) :
    p ++ fieldText "answer".toList gap gap' [] = r.before ++ r.keyText := by
  have hsplit := r.text_split
  rw [htext, fieldText_append, ← List.append_assoc] at hsplit
  obtain ⟨s, hF⟩ : ∃ s, p ++ fieldText "answer".toList gap gap' [] = s ++ ':' :: gap' :=
    ⟨p ++ '"' :: ("answer".toList ++ '"' :: gap), by simp [fieldText]⟩
  obtain ⟨t, hK⟩ : ∃ t, r.before ++ r.keyText = t ++ ':' :: r.gaps.afterColon :=
    ⟨r.before ++ (quoted r.key ++ r.gaps.afterKey), by simp [keyText]⟩
  have hquote : isSpace '"' = false := by decide
  have hw := not_mem_spaces hgap' hquote
  have hw' := not_mem_spaces (spaces_of_blank r.gaps.afterColon_blank) hquote
  rw [span] at hspan
  rw [hF, hK] at hsplit hspan ⊢
  have hstart := congrArg Prod.fst hspan
  by_cases hrest : ∃ rest', rest = '"' :: rest'
  · obtain ⟨rest', rfl⟩ := hrest
    cases ha : r.answer with
    | string cs =>
        rw [ha] at hstart
        have hlen : (s ++ ':' :: gap').length = (t ++ ':' :: r.gaps.afterColon).length :=
          (Nat.succ.inj hstart).symm
        exact (List.append_inj hsplit hlen).1
    | number k =>
        -- the quote would be the last character before the number
        rw [ha] at hstart
        have hlen : ((s ++ ':' :: gap') ++ ['"']).length =
            (t ++ ':' :: r.gaps.afterColon).length := by
          rw [List.length_append]
          exact hstart.symm
        have hsplit' : ((s ++ ':' :: gap') ++ ['"']) ++ rest' =
            (t ++ ':' :: r.gaps.afterColon) ++ (r.answer.text ++ r.after) := by
          rw [← hsplit, List.append_assoc _ ['"']]
          rfl
        exact absurd (List.append_inj hsplit' hlen).1.symm (colon_ne_quote hw')
  · have hne : ∀ c ∈ rest.head?, c ≠ '"' := by
      rintro c hc rfl
      cases rest with
      | nil => cases hc
      | cons d rest =>
          obtain rfl : d = '"' := by simpa using hc
          exact hrest ⟨rest, rfl⟩
    rw [spanOf_of_ne hne] at hstart
    cases ha : r.answer with
    | string cs =>
        -- the pattern would end behind the opening quote
        rw [ha] at hstart hsplit
        have hlen : (s ++ ':' :: gap').length =
            ((t ++ ':' :: r.gaps.afterColon) ++ ['"']).length := by
          have hlen : ((t ++ ':' :: r.gaps.afterColon) ++ ['"']).length =
              (t ++ ':' :: r.gaps.afterColon).length + 1 := List.length_append
          exact hstart.symm.trans hlen.symm
        have hsplit' : (s ++ ':' :: gap') ++ rest = ((t ++ ':' :: r.gaps.afterColon) ++ ['"']) ++
            (bodyText cs ++ '"' :: r.after) := by
          rw [hsplit, AnswerText.text, quoted_append, List.append_assoc _ ['"']]
          rfl
        exact absurd (List.append_inj hsplit' hlen).1 (colon_ne_quote hw)
    | number k =>
        rw [ha] at hstart
        have hlen : (s ++ ':' :: gap').length = (t ++ ':' :: r.gaps.afterColon).length :=
          hstart.symm
        exact (List.append_inj hsplit hlen).1

/-- A search that found the answer matched its key, spelled as it is. -/
theorem before_eq {r : AnswerReply} {p gap gap' : Str} (hgap : ∀ c ∈ gap, isSpace c = true)
    (hgap' : ∀ c ∈ gap', isSpace c = true)
    (h : p ++ fieldText "answer".toList gap gap' [] = r.before ++ r.keyText) :
    p = r.before ∧ bodyText r.key = "answer".toList := by
  have hcolon : isSpace ':' = false := by decide
  have hquote : isSpace '"' = false := by decide
  have h₁ : (p ++ '"' :: ("answer".toList ++ '"' :: gap)) ++ ':' :: gap' =
      (r.before ++ '"' :: (bodyText r.key ++ '"' :: r.gaps.afterKey)) ++
        ':' :: r.gaps.afterColon := by
    simpa [fieldText, keyText, quoted, List.append_assoc] using h
  have h₂ := (append_cons_inj (not_mem_spaces hgap' hcolon)
    (not_mem_spaces (spaces_of_blank r.gaps.afterColon_blank) hcolon) h₁).1
  rw [← List.cons_append, ← List.append_assoc, ← List.cons_append, ← List.append_assoc] at h₂
  have h₃ := (append_cons_inj (not_mem_spaces hgap hquote)
    (not_mem_spaces (spaces_of_blank r.gaps.afterKey_blank) hquote) h₂).1
  have hword : '"' ∉ "answer".toList := by decide
  rcases List.append_eq_append_iff.mp h₃ with ⟨w, hb, hw⟩ | ⟨w, hb, hw⟩
  · cases w with
    | nil => exact ⟨by rw [hb, List.append_nil], (List.cons.inj hw).2.symm⟩
    | cons c w =>
        rw [List.cons_append, List.cons.injEq] at hw
        exact absurd (by rw [hw.2]; simp) hword
  · cases w with
    | nil => exact ⟨by rw [hb, List.append_nil], (List.cons.inj hw).2⟩
    | cons c w =>
        -- a key that ends like this has more characters than the word
        rw [List.cons_append, List.cons.injEq] at hw
        obtain ⟨es, hlt, hes⟩ := exists_of_bodyText hw.2
        have hlen : (bodyText es).length = es.length := length_bodyText (by rw [hes]; decide)
        have hvalue := congrArg List.length r.key_value
        rw [bodyValue, List.length_map] at hvalue
        rw [hes] at hlen
        have : "answer".toList.length = 6 := rfl
        omega

/-- The search finds the answer of the located replies, and of no others. -/
theorem valueSpan_eq_span_iff (r : AnswerReply) :
    valueSpan r.text "answer".toList = some r.span ↔ r.Located := by
  refine ⟨fun h => ?_, valueSpan_of_located⟩
  obtain ⟨p, gap, gap', rest, hgap, hgap', -, htext, hp, hspan⟩ := valueSpan_eq_some_iff.mp h
  have hstart := start_eq hgap' htext hspan
  obtain ⟨rfl, hkey⟩ := before_eq hgap hgap' hstart
  have hrest : rest = r.answer.text ++ r.after := by
    have h : (r.before ++ r.keyText) ++ (r.answer.text ++ r.after) =
        (r.before ++ r.keyText) ++ rest := by
      rw [← text_split, htext, ← hstart, List.append_assoc, ← fieldText_append]
    exact (List.append_cancel_left h).symm
  have hfrom : fieldText "answer".toList gap gap' rest = r.fromKey := by
    rw [text_eq] at htext
    exact (List.append_cancel_left htext).symm
  rw [hfrom] at hp
  rw [hstart, hrest] at hspan
  exact ⟨hkey, hp, r.spanOf_answer.mp hspan.symm⟩

theorem span_bounds (r : AnswerReply) : (r.before ++ r.keyText).length ≤ r.span.1 ∧
    r.span.1 ≤ r.span.2 ∧ r.span.2 ≤ (r.before ++ r.keyText).length + r.answer.text.length := by
  rw [span]
  cases r.answer with
  | string cs =>
      simp only [AnswerText.span, AnswerText.text, quoted, List.length_append, List.length_cons,
        List.length_nil]
      omega
  | number k =>
      simp only [AnswerText.span, AnswerText.text]
      omega

theorem length_text (r : AnswerReply) : r.text.length =
    (r.before ++ r.keyText).length + r.answer.text.length + r.after.length := by
  rw [text_split]
  simp only [List.length_append]
  omega

/-- Before the answer there is its object's brace. -/
theorem visible_before (r : AnswerReply) : ∃ c ∈ r.text.take r.span.1, isSpace c = false := by
  refine ⟨'{', ?_, by decide⟩
  have hmem : '{' ∈ r.before ++ r.keyText := by simp [before]
  have htake : (r.before ++ r.keyText) <+: r.text.take r.span.1 := by
    rw [List.prefix_take_iff]
    exact ⟨⟨_, r.text_split.symm⟩, r.span_bounds.1⟩
  exact htake.subset hmem

/-- After the answer there is the other one. -/
theorem visible_after (r : AnswerReply) : ∃ c ∈ r.text.drop r.span.2, isSpace c = false := by
  refine ⟨'}', ?_, by decide⟩
  have hmem : '}' ∈ r.after := by simp [after]
  have hdrop : r.text.drop ((r.before ++ r.keyText).length + r.answer.text.length) = r.after := by
    rw [text_split, ← List.append_assoc, ← List.length_append, List.drop_left]
  rw [← hdrop, ← Nat.add_sub_cancel' r.span_bounds.2.2, ← List.drop_drop] at hmem
  exact List.mem_of_mem_drop hmem

theorem le_closingQuote (s : Str) (i : ℕ) : i ≤ closingQuote s i := by
  induction s, i using closingQuote.induct with
  | case1 i => exact le_rfl
  | case2 i => exact Nat.le_add_right i 2
  | case3 c rest i ih =>
      rw [closingQuote]
      omega
  | case4 rest i h h' => simp [closingQuote]
  | case5 c rest i h h' hc ih =>
      rw [closingQuote, if_neg hc]
      · omega
      · exact h
      · exact h'

/-- A span that is found does not end at the front of the text. -/
theorem pos_of_valueSpan {text field : Str} {span : ℕ × ℕ} (h : valueSpan text field = some span) :
    0 < span.2 := by
  obtain ⟨p, gap, gap', rest, -, -, -, htext, -, rfl⟩ := valueSpan_eq_some_iff.mp h
  have hlen : 0 < text.length := by
    rw [htext, fieldText]
    simp
  have hstart : 0 < (p ++ fieldText field gap gap' []).length := by simp [fieldText]
  unfold spanOf
  split
  · rename_i rest'
    have := le_closingQuote rest' ((p ++ fieldText field gap gap' []).length + 1)
    exact lt_min (by omega) hlen
  · exact Nat.add_pos_left hstart _

/-- **The tokens of the answer are selected** for the replies whose answer the search finds,
and for no others. -/
theorem selectsAnswer_iff (lib : StdLib) (r : AnswerReply) : r.SelectsAnswer lib ↔ r.Located := by
  rw [← valueSpan_eq_span_iff]
  have hb := r.span_bounds
  have hlen := r.length_text
  have hafter : 0 < r.after.length := List.length_pos_of_ne_nil r.after_ne_nil
  have hbefore : 0 < (r.before ++ r.keyText).length := by simp [before]
  constructor
  · intro h
    have hcut : ∀ n, selectedTokens (cut r.text n) "answer".toList =
        overlapping (cut r.text n) r.span := fun n => (h _ (flatten_cut _ n)).1
    simp only [selectedTokens, flatten_cut] at hcut
    cases hspan : valueSpan r.text "answer".toList with
    | none =>
        -- then every visible token is selected, also what stands before the answer
        rw [hspan] at hcut
        have hall : (cut r.text r.span.1).filter isVisible =
            overlapping (cut r.text r.span.1) r.span := hcut r.span.1
        have hn : r.span.1 ≤ r.text.length := by omega
        have hmem : (⟨r.text.take r.span.1, 0⟩ : Token) ∈
            (cut r.text r.span.1).filter isVisible :=
          List.mem_filter.mpr ⟨by simp [cut], isVisible_iff.mpr r.visible_before⟩
        rw [hall, first_mem_overlapping hn] at hmem
        exact absurd hmem.2.1 (lt_irrefl _)
    | some span =>
        rw [hspan] at hcut
        exact congrArg some (span_eq_of_cuts (fun n _ => hcut n) (pos_of_valueSpan hspan)
          (by omega) (by omega) (by omega) r.visible_before r.visible_after)
  · intro h tokens htokens
    have hselected : selectedTokens tokens "answer".toList = overlapping tokens r.span := by
      rw [selectedTokens, htokens, h]
    refine ⟨hselected, ?_⟩
    rw [answerTokenStats_eq, hselected, htokens, h]
    rfl

theorem blank_nil : Blank [] := fun _ h => absurd h List.not_mem_nil

/-- The reply `"answer": 5</ifm|think>{"answer":7}`. -/
def guessed : AnswerReply where
  reasoning := "\"answer\": 5".toList
  marker := "</ifm|think>".toList
  marker_mem := .bare
  lead := []
  earlier := []
  key := SolveField.answer.keyText
  answer := .number ⟨false, ['7'], [], none, .inr ⟨'7', [], rfl, by decide⟩,
    by simp [isDigit], nofun⟩
  gaps := ⟨[], [], [], [], blank_nil, blank_nil, blank_nil, blank_nil⟩
  later := []
  trail := []
  lead_blank := blank_nil
  trail_blank := blank_nil
  key_value := SolveField.answer.bodyValue_keyText
  later_other := nofun

/-- The field is found in the reasoning. -/
theorem selects_reasoning : ¬ guessed.SelectsAnswer asciiLib := by
  intro h
  have hselected := (h [⟨guessed.reasoning, 0⟩, ⟨guessed.marker ++ guessed.object, 1⟩]
    (by decide +kernel)).1
  revert hselected
  decide +kernel

end AnswerReply

end HorizonRelay
