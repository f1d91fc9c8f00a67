import HorizonRelay.Lib.JsonDumps
import HorizonRelay.Lib.ScriptData
import HorizonRelay.Policy
import HorizonRelay.Providers.OpenAICompatible
import Mathlib.Tactic.FieldSimp
import Mathlib.Tactic.Linarith

/-!
# The graph page

The page with a run's graph in it: the graph is written as a JSON text into a script of the
page.  The text has no end tag of the script, but it may open a comment and a script tag in
it, and then the page's own end tag no longer ends the script.

## Main definitions

* `renderHtml` — the page.
* `Template` — a page that waits for its graph.
* `JsValue`, `literal` — what a script reads.
* `Inlined` — the script ends where it should, and reads the graph.
* `depthAfter` — how deep the texts of a graph escape the script.

## Main results

* `inlined_iff` — when the graph is inlined.
* `inlined_breaks` — a graph that breaks its page.
-/

namespace HorizonRelay

open Py JsonText Html

/-! ## The page -/

/-- `text.replace("</", "<\\/")`. -/
def escapeTags : Str → Str
  | '<' :: '/' :: rest => '<' :: '\\' :: '/' :: escapeTags rest
  | c :: rest => c :: escapeTags rest
  | [] => []

/-- `text.replace(old, new, 1)`. -/
def replaceFirst (old new text : Str) : Str :=
  match upTo old text with
  | some (before, after) => before ++ (new ++ after)
  | none => text

/-- What the page has in the place of its graph. -/
def placeholder : Str := "/*RELAY_GRAPH*/null".toList

/-- The page with a graph in it. -/
def renderHtml (lib : StdLib) (template : Str) (graph : Json) : Str :=
  replaceFirst placeholder (escapeTags (dumps lib graph)) template

/-- A page that waits for its graph, as `ui/graph.html` does: the place is in a script, and what
follows it there is quiet up to the end tag. -/
structure Template : Type where
  text : Str
  head : Str
  script : Str
  foot : Str
  split : upTo placeholder text = some (head, script ++ (scriptEnd ++ '>' :: foot))
  quiet : Quiet script

/-- The page from its graph's place on. -/
def Template.rest (t : Template) : Str := t.script ++ (scriptEnd ++ '>' :: t.foot)

/-! ## What a script reads -/

/-- A value of a script. -/
inductive JsValue : Type
  | null
  | bool (b : Bool)
  | number (x : PyFloat)
  | string (s : Str)
  | array (items : List JsValue)
  | object (members : List (Str × JsValue))

/-- `repr` writes a float so that it is found again. -/
structure NumberLaws (lib : StdLib) : Prop where
  repr : ∀ q, IsDouble q → ∃ k : Number, lib.floatRepr (.fin q) = k.text ∧
    ¬ (k.fraction = [] ∧ k.exponent = none) ∧ Json.roundFloat k.parts.number = .fin q

/-- The key that sets an object's prototype instead of a member. -/
def protoKey : Str := "__proto__".toList

mutual

/-- What a script reads of a Python value: its integers as doubles, and the members that are
members there. -/
def received : Json → JsValue
  | .null => .null
  | .bool b => .bool b
  | .int n => .number (Json.roundFloat n)
  | .float x => .number x
  | .str s => .string s
  | .arr vs => .array (receivedItems vs)
  | .obj fs => .object (receivedMembers fs)

def receivedItems : List Json → List JsValue
  | [] => []
  | v :: vs => received v :: receivedItems vs

def receivedMembers : List (Str × Json) → List (Str × JsValue)
  | [] => []
  | (k, v) :: fs =>
      if k = protoKey then receivedMembers fs else (k, received v) :: receivedMembers fs

end

/-- What a script finds in the place of its graph; a JSON text is a literal. -/
def literal (text : Str) : Option JsValue := (loads text).map received

mutual

/-- A Python value, as a script would have it. -/
def counterpart : Json → JsValue
  | .null => .null
  | .bool b => .bool b
  | .int n => .number (.fin n)
  | .float x => .number x
  | .str s => .string s
  | .arr vs => .array (counterpartItems vs)
  | .obj fs => .object (counterpartMembers fs)

def counterpartItems : List Json → List JsValue
  | [] => []
  | v :: vs => counterpart v :: counterpartItems vs

def counterpartMembers : List (Str × Json) → List (Str × JsValue)
  | [] => []
  | (k, v) :: fs => (k, counterpart v) :: counterpartMembers fs

end

/-- The script the graph stands in ends at the page's own end tag, and reads the graph. -/
def Inlined (lib : StdLib) (t : Template) (graph : Json) : Prop :=
  ∃ data, renderHtml lib t.text graph = t.head ++ (data ++ t.rest) ∧
    afterScript .data (data ++ t.rest) = some ('>' :: t.foot) ∧
    literal data = some (counterpart graph)

/-! ## The texts of a graph -/

mutual

/-- The keys and strings of a value, in the order they are written. -/
def texts : Json → List Str
  | .str s => [s]
  | .arr vs => textsItems vs
  | .obj fs => textsMembers fs
  | _ => []

def textsItems : List Json → List Str
  | [] => []
  | v :: vs => texts v ++ textsItems vs

def textsMembers : List (Str × Json) → List Str
  | [] => []
  | (k, v) :: fs => k :: (texts v ++ textsMembers fs)

end

/-- The characters that end a tag's name in a string; the others that could are escaped. -/
def endsName (c : Char) : Bool := c = ' ' || c = '/' || c = '>'

/-- A script tag begins: its name, without regard to case, and a character that ends it. -/
def opensScript (s : Str) : Bool :=
  ['<'].isPrefixOf s && (isScript ((s.drop 1).takeWhile Char.isAlpha) &&
    ((s.drop 1).dropWhile Char.isAlpha).head?.any endsName)

/-- What begins at this place of a text: `<!--` opens a comment, `-->` closes it, and a script tag
in a comment is nested. -/
def turn : Depth → Str → Depth
  | .script, s => if ['<', '!', '-', '-'].isPrefixOf s then .comment else .script
  | .comment, s =>
      if ['-', '-', '>'].isPrefixOf s then .script
      else if opensScript s then .nested else .comment
  | .nested, s => if ['-', '-', '>'].isPrefixOf s then .script else .nested

/-- The depth after a text. -/
def depthIn : Depth → Str → Depth
  | d, [] => d
  | d, c :: s => depthIn (turn d (c :: s)) s

/-- The depth after the texts of a graph. -/
def depthAfter (graph : Json) : Depth := (texts graph).foldl depthIn .script

mutual

/-- What a script can have: integers that are doubles, and keys that are members. -/
def Exact : Json → Prop
  | .int n => IsDouble n
  | .arr vs => ExactItems vs
  | .obj fs => ExactMembers fs
  | _ => True

def ExactItems : List Json → Prop
  | [] => True
  | v :: vs => Exact v ∧ ExactItems vs

def ExactMembers : List (Str × Json) → Prop
  | [] => True
  | (k, v) :: fs => k ≠ protoKey ∧ Exact v ∧ ExactMembers fs

end

mutual

/-- What Python can hold: floats that are doubles, and no key twice in a dictionary. -/
def Held : Json → Prop
  | .float (.fin q) => IsDouble q
  | .arr vs => HeldItems vs
  | .obj fs => (fs.map Prod.fst).Nodup ∧ HeldMembers fs
  | _ => True

def HeldItems : List Json → Prop
  | [] => True
  | v :: vs => Held v ∧ HeldItems vs

def HeldMembers : List (Str × Json) → Prop
  | [] => True
  | (_, v) :: fs => Held v ∧ HeldMembers fs

end

/-! ## The text of a graph in its page -/

/-- The characters of a string in the page, where `after` says that a `<` came before: a slash after
it is escaped. -/
def spell (after : Bool) : Str → List StrChar
  | [] => []
  | c :: s =>
      (if h : after = true ∧ c = '/' then .letter '/' c (by rw [h.2]; rfl) else dumpsChar c) ::
        spell (c = '<') s

theorem bodyValue_spell (after : Bool) (s : Str) : bodyValue (spell after s) = s := by
  induction s generalizing after with
  | nil => rfl
  | cons c s ih =>
      have hchar : (if h : after = true ∧ c = '/' then StrChar.letter '/' c (by rw [h.2]; rfl)
          else dumpsChar c).char = c := by
        split
        · rfl
        · exact char_dumpsChar c
      rw [spell, bodyValue, List.map_cons, hchar]
      exact congrArg (c :: ·) (ih _)

theorem escapeTags_cons {c : Char} {s : Str} (h : c ≠ '<' ∨ s.head? ≠ some '/') :
    escapeTags (c :: s) = c :: escapeTags s := by
  rw [escapeTags.eq_def]
  split
  · rename_i rest heq
    obtain ⟨rfl, rfl⟩ := List.cons.inj heq
    simp at h
  · rename_i heq
    obtain ⟨rfl, rfl⟩ := List.cons.inj heq
    rfl
  · rename_i heq
    cases heq

theorem escapeTags_append {x r : Str} (hx : '<' ∉ x) : escapeTags (x ++ r) = x ++ escapeTags r := by
  induction x with
  | nil => rfl
  | cons c x ih =>
      rw [List.mem_cons, not_or] at hx
      rw [List.cons_append, escapeTags_cons (.inl (Ne.symm hx.1)), ih hx.2]
      rfl

theorem not_mem_text {c : Char} (h : c ≠ '<') : '<' ∉ (dumpsChar c).text := by
  rcases text_dumpsChar c with ⟨-, htext⟩ | ⟨-, r, htext, hr⟩
  · rw [htext]
    simpa using h.symm
  · rw [htext, List.mem_cons, not_or]
    exact ⟨by decide, fun hmem => (hr _ hmem).1 rfl⟩

theorem head_text {c : Char} (h : c ≠ '/') (r : Str) :
    ((dumpsChar c).text ++ r).head? ≠ some '/' := by
  rcases text_dumpsChar c with ⟨-, htext⟩ | ⟨-, r', htext, -⟩
  · simpa [htext] using h
  · simp [htext]

theorem spell_cons_of_ne {c : Char} {after : Bool} (h : after = false ∨ c ≠ '/') (s : Str) :
    spell after (c :: s) = dumpsChar c :: spell (c = '<') s := by
  have hno : ¬ (after = true ∧ c = '/') := by
    rintro ⟨rfl, rfl⟩
    simp at h
  rw [spell, dif_neg hno]

/-- A string, with the slashes after `<` escaped. -/
theorem escapeTags_body (s r : Str) :
    escapeTags (bodyText (s.map dumpsChar) ++ '"' :: r) =
        bodyText (spell false s) ++ '"' :: escapeTags r ∧
      escapeTags ('<' :: (bodyText (s.map dumpsChar) ++ '"' :: r)) =
        '<' :: (bodyText (spell true s) ++ '"' :: escapeTags r) := by
  induction s with
  | nil =>
      have hquote : escapeTags ('"' :: r) = '"' :: escapeTags r :=
        escapeTags_cons (.inl (by decide))
      refine ⟨hquote, ?_⟩
      exact (escapeTags_cons (.inr (by simp))).trans (congrArg ('<' :: ·) hquote)
  | cons c s ih =>
      have hfirst : escapeTags (bodyText ((c :: s).map dumpsChar) ++ '"' :: r) =
          bodyText (spell false (c :: s)) ++ '"' :: escapeTags r := by
        rw [spell_cons_of_ne (.inl rfl), List.map_cons, bodyText_cons, bodyText_cons]
        by_cases hlt : c = '<'
        · subst hlt
          rw [text_dumpsChar_of_not (not_escaped (by decide))]
          exact ih.2
        · rw [List.append_assoc, List.append_assoc, escapeTags_append (not_mem_text hlt), ih.1]
          simp [hlt]
      refine ⟨hfirst, ?_⟩
      by_cases hslash : c = '/'
      · subst hslash
        have hspell : spell true ('/' :: s) =
            .letter '/' '/' rfl :: spell false s := rfl
        rw [hspell, List.map_cons, bodyText_cons, bodyText_cons,
          text_dumpsChar_of_not (not_escaped (by decide))]
        exact congrArg ('<' :: '\\' :: '/' :: ·) ih.1
      · have hhead : (bodyText ((c :: s).map dumpsChar) ++ '"' :: r).head? ≠ some '/' := by
          rw [List.map_cons, bodyText_cons, List.append_assoc]
          exact head_text hslash _
        rw [escapeTags_cons (.inr hhead), hfirst, spell_cons_of_ne (.inl rfl),
          spell_cons_of_ne (.inr hslash)]

theorem escapeTags_quoted (s r : Str) :
    escapeTags (quoted (s.map dumpsChar) ++ r) = quoted (spell false s) ++ escapeTags r := by
  have hbody := (escapeTags_body s r).1
  simp only [quoted, List.cons_append, List.append_assoc, List.nil_append]
  rw [escapeTags_cons (.inl (by decide)), hbody]

/-! ## Numbers and words -/

/-- A text without the marks of a page. -/
def Unmarked (x : Str) : Prop := ∀ c ∈ x, c ≠ '<' ∧ c ≠ '>'

theorem Unmarked.of_all {x : Str} (h : x.all (fun c => c ≠ '<' ∧ c ≠ '>') = true) : Unmarked x :=
  fun c hc => of_decide_eq_true (List.all_eq_true.mp h c hc)

theorem Unmarked.append {x y : Str} (hx : Unmarked x) (hy : Unmarked y) : Unmarked (x ++ y) := by
  intro c hc
  rcases List.mem_append.mp hc with hc | hc
  · exact hx c hc
  · exact hy c hc

theorem unmarked_digits {ds : Str} (h : ∀ c ∈ ds, isDigit c = true) : Unmarked ds :=
  fun c hc => ⟨ne_of_isDigit (h c hc) (by decide), ne_of_isDigit (h c hc) (by decide)⟩

theorem unmarked_exponent (e : Exponent) : Unmarked e.text := by
  have hmark : Unmarked [e.mark] := by
    rcases e.mark_mem with h | h <;> rw [h] <;> exact .of_all (by decide)
  have hsign : Unmarked e.sign := by
    rcases e.sign_mem with h | h | h <;> rw [h] <;> exact .of_all (by decide)
  exact (hmark.append hsign).append (unmarked_digits e.digits_all)

theorem unmarked_number (k : Number) : Unmarked k.text := by
  have hneg : Unmarked (if k.neg then ['-'] else []) := by
    split <;> exact .of_all (by decide)
  have hfraction : Unmarked (if k.fraction = [] then [] else '.' :: k.fraction) := by
    split
    · exact .of_all (by decide)
    · have hpoint : Unmarked ['.'] := .of_all (by decide)
      exact hpoint.append (unmarked_digits k.fraction_all)
  have hexponent : Unmarked ((k.exponent.map Exponent.text).getD []) := by
    cases k.exponent with
    | none => exact .of_all (by decide)
    | some e => exact unmarked_exponent e
  exact hneg.append (((unmarked_digits k.whole_all).append hfraction).append hexponent)

section Texts
variable {lib : StdLib}

theorem unmarked_int (n : ℤ) : Unmarked (Str.ofInt n) := by
  obtain ⟨k, hk, -⟩ := exists_ofInt n
  rw [hk]
  exact unmarked_number k

theorem unmarked_float (laws : NumberLaws lib) {x : PyFloat}
    (hx : ∀ q, x = .fin q → IsDouble q) : Unmarked (floatText lib x) := by
  cases x with
  | fin q =>
      obtain ⟨k, hk, -⟩ := laws.repr q (hx q rfl)
      rw [floatText_fin, hk]
      exact unmarked_number k
  | posInf => exact .of_all (x := "Infinity".toList) (by decide)
  | negInf => exact .of_all (x := "-Infinity".toList) (by decide)
  | nan => exact .of_all (x := "NaN".toList) (by decide)

theorem isDouble_of_held {x : PyFloat} (hx : Held (.float x)) : ∀ q, x = .fin q → IsDouble q := by
  rintro q rfl
  simpa only [Held] using hx

theorem unmarked_bool (b : Bool) : Unmarked (if b then "true".toList else "false".toList) := by
  cases b <;> exact .of_all (by decide)

theorem escapeTags_unmarked {x : Str} (hx : Unmarked x) (r : Str) :
    escapeTags (x ++ r) = x ++ escapeTags r :=
  escapeTags_append fun h => (hx _ h).1 rfl

/-! ## The graph as it is written -/

/-- A value as it is written in the page. -/
def written (lib : StdLib) (v : Json) : Str := dumpsWith lib (spell false) v

theorem escapeTags_member {k t t' r r' : Str} (h : escapeTags (t ++ r) = t' ++ r') :
    escapeTags (memberText (k.map dumpsChar) [] [' '] t ++ r) =
      memberText (spell false k) [] [' '] t' ++ r' := by
  have hcolon : escapeTags (':' :: ' ' :: (t ++ r)) = ':' :: ' ' :: escapeTags (t ++ r) :=
    (escapeTags_cons (.inl (by decide))).trans
      (congrArg (':' :: ·) (escapeTags_cons (.inl (by decide))))
  have hkey := escapeTags_quoted k (':' :: ' ' :: (t ++ r))
  rw [hcolon, h] at hkey
  simpa [memberText, List.append_assoc] using hkey

theorem escapeTags_comma (r : Str) :
    escapeTags (',' :: ' ' :: r) = ',' :: ' ' :: escapeTags r :=
  (escapeTags_cons (.inl (by decide))).trans
    (congrArg (',' :: ·) (escapeTags_cons (.inl (by decide))))

mutual

theorem escapeTags_dumps (laws : NumberLaws lib) : ∀ (v : Json) (r : Str), Held v →
    escapeTags (dumpsWith lib (fun s => s.map dumpsChar) v ++ r) =
      dumpsWith lib (spell false) v ++ escapeTags r
  | .null, r, _ => escapeTags_unmarked (x := "null".toList) (.of_all (by decide)) r
  | .bool b, r, _ => escapeTags_unmarked (unmarked_bool b) r
  | .int n, r, _ => escapeTags_unmarked (unmarked_int n) r
  | .float _, r, hv => escapeTags_unmarked (unmarked_float laws (isDouble_of_held hv)) r
  | .str s, r, _ => escapeTags_quoted s r
  | .arr [], r, _ => escapeTags_unmarked (.of_all rfl) r
  | .arr (v :: vs), r, hv => by
      have hclose : escapeTags (']' :: r) = ']' :: escapeTags r :=
        escapeTags_cons (.inl (by decide))
      simp only [dumpsWith, List.cons_append, List.append_assoc, List.nil_append]
      rw [escapeTags_cons (.inl (by decide)), escapeTags_dumps laws v _ hv.1,
        escapeTags_items laws vs _ hv.2, hclose]
  | .obj [], r, _ => escapeTags_unmarked (.of_all rfl) r
  | .obj ((k, v) :: fs), r, hv => by
      have hclose : escapeTags ('}' :: r) = '}' :: escapeTags r :=
        escapeTags_cons (.inl (by decide))
      simp only [dumpsWith, List.cons_append, List.append_assoc, List.nil_append]
      rw [escapeTags_cons (.inl (by decide)), escapeTags_member (escapeTags_dumps laws v _ hv.2.1),
        escapeTags_members laws fs _ hv.2.2, hclose]

theorem escapeTags_items (laws : NumberLaws lib) : ∀ (vs : List Json) (r : Str),
    HeldItems vs → escapeTags (dumpsItems lib (fun s => s.map dumpsChar) vs ++ r) =
      dumpsItems lib (spell false) vs ++ escapeTags r
  | [], r, _ => rfl
  | v :: vs, r, hvs => by
      simp only [dumpsItems, List.cons_append, List.append_assoc]
      rw [escapeTags_comma, escapeTags_dumps laws v _ hvs.1, escapeTags_items laws vs r hvs.2]

theorem escapeTags_members (laws : NumberLaws lib) : ∀ (fs : List (Str × Json)) (r : Str),
    HeldMembers fs → escapeTags (dumpsMembers lib (fun s => s.map dumpsChar) fs ++ r) =
      dumpsMembers lib (spell false) fs ++ escapeTags r
  | [], r, _ => rfl
  | (k, v) :: fs, r, hfs => by
      simp only [dumpsMembers, List.cons_append, List.append_assoc]
      rw [escapeTags_comma, escapeTags_member (escapeTags_dumps laws v _ hfs.1),
        escapeTags_members laws fs r hfs.2]

end

/-- What stands in the page is the graph's text with the slashes after `<` escaped. -/
theorem escapeTags_eq_written (laws : NumberLaws lib) {v : Json} (hv : Held v) :
    escapeTags (dumps lib v) = written lib v := by
  have h := escapeTags_dumps laws v [] hv
  rw [List.append_nil] at h
  exact h.trans (List.append_nil _)

end Texts

/-! ## The depth after a string -/

variable {d : Depth} {s r : Str} {c : Char} {after : Bool}

/-- No `-->` ends in a text without marks or begins in it and ends after it. -/
theorem not_closing {x : Str} (hx : Unmarked x) (hr : ∀ c ∈ r.head?, c ≠ '-' ∧ c ≠ '>') :
    ['-', '>'].isPrefixOf (x ++ r) = false ∧ ['>'].isPrefixOf (x ++ r) = false := by
  induction x with
  | nil =>
      cases r with
      | nil => exact ⟨rfl, rfl⟩
      | cons c r =>
          obtain ⟨hdash, hgt⟩ := hr c rfl
          simp [List.isPrefixOf, hdash.symm, hgt.symm]
  | cons e x ih =>
      have hgt := (hx e (by simp)).2
      have hrest := (ih fun e he => hx e (by simp [he])).2
      rw [List.cons_append]
      exact ⟨by rw [List.isPrefixOf, hrest, Bool.and_false], by simp [List.isPrefixOf, hgt.symm]⟩

/-- A text without marks, where what follows it does not go on with one. -/
theorem scan_unmarked {x : Str} (hx : Unmarked x) (hr : ∀ c ∈ r.head?, c ≠ '-' ∧ c ≠ '>') :
    scan d (x ++ r) = scan d r := by
  induction x with
  | nil => rfl
  | cons c x ih =>
      have hlt := (hx c (by simp)).1
      have hrest := ih fun e he => hx e (by simp [he])
      by_cases hdash : c = '-'
      · subst hdash
        have hclosing : ['-', '-', '>'].isPrefixOf ('-' :: (x ++ r)) = false := by
          rw [List.isPrefixOf, (not_closing (fun e he => hx e (by simp [he])) hr).1, Bool.and_false]
        have hmark : d.mark ('-' :: (x ++ r)) = some d := by
          cases d <;> simp only [Depth.mark, isEndTag, isStartTag, hclosing] <;>
            simp [List.isPrefixOf]
        rw [List.cons_append, scan_of_mark hmark, hrest]
      · rw [List.cons_append, scan_plain hlt hdash, hrest]

/-- Whether a text begins a string is told by the string as it is spelled. -/
theorem isPrefixOf_spell {p : Str} (hp : ∀ e ∈ p, ¬ Escaped e ∧ e ≠ '/') (after : Bool)
    (s r : Str) :
    p.isPrefixOf (bodyText (spell after s) ++ '"' :: r) = p.isPrefixOf s := by
  induction p generalizing after s with
  | nil => simp
  | cons e p ih =>
      obtain ⟨⟨he, hslash⟩, hp⟩ := List.forall_mem_cons.mp hp
      have hquote : (e == '"') = false := by
        simp only [beq_eq_false_iff_ne]
        rintro rfl
        exact he (by unfold Escaped; decide)
      have hback : (e == '\\') = false := by
        simp only [beq_eq_false_iff_ne]
        rintro rfl
        exact he (by unfold Escaped; decide)
      cases s with
      | nil => simp [spell, List.isPrefixOf, hquote]
      | cons c s =>
          by_cases hboth : after = true ∧ c = '/'
          · obtain ⟨rfl, rfl⟩ := hboth
            have hne : (e == '/') = false := by simpa using hslash
            simp [spell, StrChar.text, List.isPrefixOf, hback, hne]
          · have hcons : spell after (c :: s) = dumpsChar c :: spell (c = '<') s := by
              rw [spell, dif_neg hboth]
            rw [hcons, bodyText_cons]
            rcases text_dumpsChar c with ⟨-, htext⟩ | ⟨hc, r', htext, -⟩
            · simp [htext, List.isPrefixOf, ih hp]
            · have hne : (e == c) = false := by
                simp only [beq_eq_false_iff_ne]
                rintro rfl
                exact he hc
              simp [htext, List.isPrefixOf, hback, hne]

theorem isAlpha_of_escaped (h : Escaped c) : c.isAlpha = false := by
  have hlow : ∀ n < 32, (Char.ofNat n).isAlpha = false := by decide
  rcases h with h | rfl | rfl
  · rw [← Char.ofNat_toNat c]
    exact hlow _ (toNat_lt_of_lt_space h)
  · rfl
  · rfl

theorem isBreak_eq (h : ¬ Escaped c) : isBreak c = endsName c := by
  have hne : ∀ e, Escaped e → c ≠ e := by
    rintro e he rfl
    exact h he
  have htab := hne '\t' (.inl (by decide))
  have hline := hne '\n' (.inl (by decide))
  have hfeed := hne '\x0c' (.inl (by decide))
  simp [isBreak, endsName, htab, hline, hfeed]

theorem endsName_of_escaped (h : Escaped c) : endsName c = false := by
  have hne : ∀ e, ¬ Escaped e → c ≠ e := by
    rintro e he rfl
    exact he h
  have hspace := hne ' ' (not_escaped (by decide))
  have hslash := hne '/' (not_escaped (by decide))
  have hgt := hne '>' (not_escaped (by decide))
  simp [endsName, hspace, hslash, hgt]

/-- The name of a tag, in a string and as it is spelled. -/
theorem name_spell (s r : Str) :
    (bodyText (spell false s) ++ '"' :: r).takeWhile Char.isAlpha = s.takeWhile Char.isAlpha ∧
      ((bodyText (spell false s) ++ '"' :: r).dropWhile Char.isAlpha).head?.any isBreak =
        (s.dropWhile Char.isAlpha).head?.any endsName := by
  induction s with
  | nil => exact ⟨rfl, rfl⟩
  | cons c s ih =>
      rw [spell_cons_of_ne (.inl rfl), bodyText_cons]
      by_cases hc : c.isAlpha = true
      · have hlt : c ≠ '<' := ne_of_isAlpha hc (by decide)
        have hplain : (dumpsChar c).text = [c] := by
          refine text_dumpsChar_of_not fun hesc => ?_
          rw [isAlpha_of_escaped hesc] at hc
          cases hc
        simpa [hplain, hlt, hc] using ih
      · rcases text_dumpsChar c with ⟨hplain, htext⟩ | ⟨hesc, r', htext, -⟩
        · simp [htext, hc, isBreak_eq hplain]
        · have hback : Char.isAlpha '\\' = false := by decide
          simp [htext, hc, hback, endsName_of_escaped hesc]
          decide

/-- Whether a script tag begins is told by the string as it is spelled. -/
theorem opensName_spell (s r : Str) (after : Bool) :
    opensName (bodyText (spell after s) ++ '"' :: r) =
      (isScript (s.takeWhile Char.isAlpha) &&
        (s.dropWhile Char.isAlpha).head?.any endsName) := by
  have hfalse : opensName (bodyText (spell false s) ++ '"' :: r) = _ :=
    congrArg₂ (fun x y => isScript x && y) (name_spell s r).1 (name_spell s r).2
  cases after with
  | false => exact hfalse
  | true =>
      cases s with
      | nil => exact hfalse
      | cons c s =>
          by_cases hslash : c = '/'
          · subst hslash
            have hname : isScript (('/' :: s).takeWhile Char.isAlpha) = false := by
              rw [List.takeWhile_cons_of_neg (by decide)]
              rfl
            rw [hname, Bool.false_and]
            exact opensName_of_not_isAlpha (by decide)
          · rwa [spell_cons_of_ne (.inr hslash), ← spell_cons_of_ne (.inl rfl)]

theorem not_slash_spell (s r : Str) :
    ['/'].isPrefixOf (bodyText (spell true s) ++ '"' :: r) = false := by
  cases s with
  | nil => rfl
  | cons c s =>
      by_cases hslash : c = '/'
      · subst hslash
        rfl
      · have hhead := head_text hslash (bodyText (spell (c = '<') s) ++ '"' :: r)
        rw [spell_cons_of_ne (.inr hslash), bodyText_cons, List.append_assoc]
        cases htext : (dumpsChar c).text ++ (bodyText (spell (c = '<') s) ++ '"' :: r) with
        | nil => rfl
        | cons e t =>
            rw [htext] at hhead
            have hne : ('/' == e) = false := by
              simp only [beq_eq_false_iff_ne]
              rintro rfl
              exact hhead rfl
            rw [List.isPrefixOf, hne, Bool.false_and]

/-- What begins in a string begins in the page, except an end tag. -/
theorem mark_spell (c : Char) (s r : Str) (d : Depth) :
    d.mark (c :: (bodyText (spell (c = '<') s) ++ '"' :: r)) = some (turn d (c :: s)) := by
  have hprefix : ∀ e p, (∀ e ∈ p, ¬ Escaped e ∧ e ≠ '/') →
      (e :: p).isPrefixOf (c :: (bodyText (spell (c = '<') s) ++ '"' :: r)) =
        (e :: p).isPrefixOf (c :: s) := by
    intro e p hp
    rw [List.isPrefixOf, List.isPrefixOf, isPrefixOf_spell hp]
  have hdash : ¬ Escaped '-' ∧ '-' ≠ '/' := ⟨not_escaped (by decide), by decide⟩
  have hbang : ¬ Escaped '!' ∧ '!' ≠ '/' := ⟨not_escaped (by decide), by decide⟩
  have hgt : ¬ Escaped '>' ∧ '>' ≠ '/' := ⟨not_escaped (by decide), by decide⟩
  have hopening := hprefix '<' ['!', '-', '-'] (by simp [hbang, hdash])
  have hclosing := hprefix '-' ['-', '>'] (by simp [hdash, hgt])
  have hstart : isStartTag (c :: (bodyText (spell (c = '<') s) ++ '"' :: r)) =
      opensScript (c :: s) := by
    rw [isStartTag, opensScript, hprefix '<' [] (by simp), List.drop_succ_cons, List.drop_zero,
      List.drop_succ_cons, List.drop_zero, opensName_spell]
  have hend : isEndTag (c :: (bodyText (spell (c = '<') s) ++ '"' :: r)) = false := by
    by_cases hlt : c = '<'
    · subst hlt
      have hslash :
          ['/'].isPrefixOf (bodyText (spell (decide ('<' = '<')) s) ++ '"' :: r) = false :=
        not_slash_spell s r
      rw [isEndTag, List.isPrefixOf, hslash, Bool.and_false, Bool.false_and]
    · have hne : ('<' == c) = false := by simpa using Ne.symm hlt
      rw [isEndTag, List.isPrefixOf, hne, Bool.false_and, Bool.false_and]
  cases d <;> simp only [Depth.mark, turn, hopening, hclosing, hstart, hend, Bool.false_eq_true,
    if_false]

theorem turn_plain (hlt : c ≠ '<') (hdash : c ≠ '-') : turn d (c :: s) = d := by
  cases d <;> simp [turn, opensScript, List.isPrefixOf, hlt.symm, hdash.symm]

theorem scan_skip {x : Str} (hx : ∀ e ∈ x, e ≠ '<' ∧ e ≠ '-') (r : Str) :
    scan d (x ++ r) = scan d r := by
  induction x with
  | nil => rfl
  | cons e x ih =>
      obtain ⟨hlt, hdash⟩ := hx e (by simp)
      rw [List.cons_append, scan_plain hlt hdash]
      exact ih fun e he => hx e (by simp [he])

/-- A string in the page changes the depth as its text does. -/
theorem scan_body (s r : Str) (after : Bool) (d : Depth) :
    scan d (bodyText (spell after s) ++ '"' :: r) = scan (depthIn d s) ('"' :: r) := by
  induction s generalizing after d with
  | nil => rfl
  | cons c s ih =>
      rw [depthIn]
      by_cases hboth : after = true ∧ c = '/'
      · obtain ⟨rfl, rfl⟩ := hboth
        have hspell :
            bodyText (spell true ('/' :: s)) = '\\' :: '/' :: bodyText (spell false s) := rfl
        rw [hspell, List.cons_append, List.cons_append, scan_plain (by decide) (by decide),
          scan_plain (by decide) (by decide), ih, turn_plain (by decide) (by decide)]
      · have hcons : spell after (c :: s) = dumpsChar c :: spell (c = '<') s := by
          rw [spell, dif_neg hboth]
        rw [hcons, bodyText_cons, List.append_assoc]
        rcases text_dumpsChar c with ⟨-, htext⟩ | ⟨hesc, r', htext, hr'⟩
        · rw [htext, List.singleton_append, scan_of_mark (mark_spell c s r d), ih]
        · have hne : ∀ e, ¬ Escaped e → c ≠ e := by
            rintro e he rfl
            exact he hesc
          rw [htext, List.cons_append, scan_plain (by decide) (by decide), scan_skip hr', ih,
            turn_plain (hne _ (not_escaped (by decide))) (hne _ (not_escaped (by decide)))]

theorem scan_quoted (s r : Str) (d : Depth) :
    scan d (quoted (spell false s) ++ r) = scan (depthIn d s) r := by
  have hopen : quoted (spell false s) ++ r = '"' :: (bodyText (spell false s) ++ '"' :: r) := by
    simp [quoted]
  rw [hopen, scan_plain (by decide) (by decide), scan_body, scan_plain (by decide) (by decide)]

theorem scan_member (k t r : Str) (d : Depth) :
    scan d (memberText (spell false k) [] [' '] t ++ r) = scan (depthIn d k) (t ++ r) := by
  have htext : memberText (spell false k) [] [' '] t ++ r =
      quoted (spell false k) ++ ':' :: ' ' :: (t ++ r) := by
    simp [memberText]
  rw [htext, scan_quoted, scan_plain (by decide) (by decide), scan_plain (by decide) (by decide)]

theorem scan_comma (r : Str) (d : Depth) : scan d (',' :: ' ' :: r) = scan d r := by
  rw [scan_plain (by decide) (by decide), scan_plain (by decide) (by decide)]

/-- What follows a value neither goes on with a number nor with a mark. -/
def Closed (r : Str) : Prop := ∀ c ∈ r.head?, c ≠ '-' ∧ c ≠ '>'

theorem closed_cons (hdash : c ≠ '-') (hgt : c ≠ '>') (r : Str) : Closed (c :: r) := by
  intro e he
  obtain rfl : c = e := by simpa using he
  exact ⟨hdash, hgt⟩

section Scan
variable {lib : StdLib}

theorem closed_items (vs : List Json) (r : Str) (hr : Closed r) :
    Closed (dumpsItems lib (spell false) vs ++ r) := by
  cases vs with
  | nil => exact hr
  | cons v vs => exact closed_cons (by decide) (by decide) _

theorem closed_members (fs : List (Str × Json)) (r : Str) (hr : Closed r) :
    Closed (dumpsMembers lib (spell false) fs ++ r) := by
  cases fs with
  | nil => exact hr
  | cons f fs => exact closed_cons (by decide) (by decide) _

mutual

theorem scan_written (laws : NumberLaws lib) : ∀ (v : Json) (r : Str) (d : Depth),
    Held v → (v.isObj = false → Closed r) →
      scan d (dumpsWith lib (spell false) v ++ r) = scan ((texts v).foldl depthIn d) r
  | .null, r, d, _, hr => scan_unmarked (x := "null".toList) (.of_all (by decide)) (hr rfl)
  | .bool b, r, d, _, hr => scan_unmarked (unmarked_bool b) (hr rfl)
  | .int n, r, d, _, hr => scan_unmarked (unmarked_int n) (hr rfl)
  | .float _, r, d, hv, hr => scan_unmarked (unmarked_float laws (isDouble_of_held hv)) (hr rfl)
  | .str s, r, d, _, _ => scan_quoted s r d
  | .arr [], r, d, _, hr => scan_unmarked (x := ['[', ']']) (.of_all (by decide)) (hr rfl)
  | .arr (v :: vs), r, d, hv, _ => by
      have hclose : Closed (']' :: r) := closed_cons (by decide) (by decide) r
      simp only [dumpsWith, List.cons_append, List.append_assoc, List.nil_append, texts,
        textsItems, List.foldl_append]
      rw [scan_plain (by decide) (by decide),
        scan_written laws v _ d hv.1 (fun _ => closed_items vs _ hclose),
        scan_items laws vs _ _ hv.2 hclose, scan_plain (by decide) (by decide)]
  | .obj [], r, d, _, _ => by
      simp only [dumpsWith, List.cons_append, List.nil_append, texts, textsMembers, List.foldl_nil]
      rw [scan_plain (by decide) (by decide), scan_plain (by decide) (by decide)]
  | .obj ((k, v) :: fs), r, d, hv, _ => by
      have hclose : Closed ('}' :: r) := closed_cons (by decide) (by decide) r
      simp only [dumpsWith, List.cons_append, List.append_assoc, List.nil_append, texts,
        textsMembers, List.foldl_cons, List.foldl_append]
      rw [scan_plain (by decide) (by decide), scan_member,
        scan_written laws v _ _ hv.2.1 (fun _ => closed_members fs _ hclose),
        scan_members laws fs _ _ hv.2.2 hclose, scan_plain (by decide) (by decide)]

theorem scan_items (laws : NumberLaws lib) : ∀ (vs : List Json) (r : Str) (d : Depth),
    HeldItems vs → Closed r →
      scan d (dumpsItems lib (spell false) vs ++ r) = scan ((textsItems vs).foldl depthIn d) r
  | [], r, d, _, _ => rfl
  | v :: vs, r, d, hvs, hr => by
      simp only [dumpsItems, List.cons_append, List.append_assoc, textsItems, List.foldl_append]
      rw [scan_comma, scan_written laws v _ d hvs.1 (fun _ => closed_items vs r hr),
        scan_items laws vs r _ hvs.2 hr]

theorem scan_members (laws : NumberLaws lib) : ∀ (fs : List (Str × Json)) (r : Str)
    (d : Depth), HeldMembers fs → Closed r →
      scan d (dumpsMembers lib (spell false) fs ++ r) = scan ((textsMembers fs).foldl depthIn d) r
  | [], r, d, _, _ => rfl
  | (k, v) :: fs, r, d, hfs, hr => by
      simp only [dumpsMembers, List.cons_append, List.append_assoc, textsMembers, List.foldl_cons,
        List.foldl_append]
      rw [scan_comma, scan_member, scan_written laws v _ _ hfs.1 (fun _ => closed_members fs r hr),
        scan_members laws fs r _ hfs.2 hr]

end

/-- The page after a graph is read at the depth after its texts. -/
theorem scan_graph (laws : NumberLaws lib) {fs : List (Str × Json)} (h : Held (.obj fs))
    (r : Str) : scan .script (written lib (.obj fs) ++ r) = scan (depthAfter (.obj fs)) r :=
  scan_written laws (.obj fs) r .script h (by simp [Json.isObj, Json.obj?])

end Scan

/-! ## The literal -/

section Literal
variable {lib : StdLib}

mutual

/-- What is written of a value spells the value. -/
theorem spells_written (laws : NumberLaws lib) : ∀ v : Json, Held v →
    Spells (dumpsWith lib (spell false) v) (.value v)
  | .null, _ => .word (t := "null".toList) (by simp [words])
  | .bool b, _ => .word (by cases b <;> simp [words, dumpsWith])
  | .int n, _ => by
      obtain ⟨k, htext, hjson⟩ := exists_ofInt n
      rw [dumpsWith, htext, ← hjson]
      exact .number k
  | .float x, hv => by
      have hdouble := isDouble_of_held hv
      cases x with
      | fin q =>
          obtain ⟨k, htext, hk, hq⟩ := laws.repr q (hdouble q rfl)
          have hparts : ¬ (k.parts.fraction = [] ∧ k.parts.exponent = none) := by
            simpa [Number.parts] using hk
          have hjson : k.parts.json = .float (.fin q) := by
            rw [Parts.json, if_neg hparts, hq]
          rw [dumpsWith, floatText_fin, htext, ← hjson]
          exact .number k
      | posInf => exact .word (t := "Infinity".toList) (by simp [words])
      | negInf => exact .word (t := "-Infinity".toList) (by simp [words])
      | nan => exact .word (t := "NaN".toList) (by simp [words])
  | .str s, _ => by
      have h := Spells.string (spell false s)
      rwa [bodyValue_spell] at h
  | .arr [], _ => .emptyList (w := []) (by simp [Blank])
  | .arr (v :: vs), hv => by
      have h := Spells.list (w := []) (by simp [Blank])
        (spells_items laws vs hv.2 (spells_written laws v hv.1))
      simpa [dumpsWith, List.append_assoc] using h
  | .obj [], _ => .emptyObject (w := []) (by simp [Blank])
  | .obj ((k, v) :: fs), hv => by
      have h := Spells.object (w := []) (by simp [Blank])
        (spells_members laws fs hv.2.2 k (spells_written laws v hv.2.1))
      rw [Dict.entries_ofList hv.1] at h
      simpa [dumpsWith, List.append_assoc] using h

theorem spells_items (laws : NumberLaws lib) : ∀ (vs : List Json), HeldItems vs →
    ∀ {t : Str} {v : Json}, Spells t (.value v) →
      Spells (t ++ dumpsItems lib (spell false) vs) (.items (v :: vs))
  | [], _, t, v, ht => .item ht (w := []) (by simp [Blank])
  | w :: ws, hvs, t, v, ht => by
      have h : Spells (t ++ ([] ++ ',' :: ([' '] ++ _))) (.items (v :: w :: ws)) :=
        .nextItem ht (by simp [Blank]) (by simp [Blank, isBlank])
          (spells_items laws ws hvs.2 (spells_written laws w hvs.1))
      simpa [dumpsItems] using h

theorem spells_members (laws : NumberLaws lib) : ∀ (fs : List (Str × Json)),
    HeldMembers fs → ∀ (k : Str) {t : Str} {v : Json}, Spells t (.value v) →
      Spells (memberText (spell false k) [] [' '] t ++ dumpsMembers lib (spell false) fs)
        (.members ((k, v) :: fs))
  | [], _, k, t, v, ht => by
      have h : Spells (memberText (spell false k) [] [' '] t ++ [])
          (.members [(bodyValue (spell false k), v)]) :=
        .member (by simp [Blank]) (by simp [Blank, isBlank]) ht (by simp [Blank])
      rwa [bodyValue_spell] at h
  | (k', w) :: fs, hfs, k, t, v, ht => by
      have h : Spells (memberText (spell false k) [] [' '] t ++ ([] ++ ',' :: ([' '] ++ _)))
          (.members ((bodyValue (spell false k), v) :: (k', w) :: fs)) :=
        .nextMember (by simp [Blank]) (by simp [Blank, isBlank]) ht (by simp [Blank])
          (by simp [Blank, isBlank])
          (spells_members laws fs hfs.2 k' (spells_written laws w hfs.1))
      rw [bodyValue_spell] at h
      simpa [dumpsMembers] using h

end

/-- A script reads the text of a graph as what it can have of the graph. -/
theorem literal_written (laws : NumberLaws lib) {v : Json} (hv : Held v) :
    literal (written lib v) = some (received v) := by
  have hblank : Blank [] := by simp [Blank]
  have hloads := loads_of_spells hblank (spells_written laws v hv) hblank
  rw [List.nil_append, List.append_nil] at hloads
  rw [literal, written, hloads, Option.map_some]

theorem roundFloat_int_iff (n : ℤ) : Json.roundFloat n = .fin n ↔ IsDouble n :=
  ⟨Json.isDouble_of_roundFloat, Json.roundFloat_of_isDouble⟩

theorem length_receivedMembers : ∀ fs : List (Str × Json),
    (receivedMembers fs).length ≤ fs.length
  | [] => le_rfl
  | (k, v) :: fs => by
      have ih := length_receivedMembers fs
      simp only [receivedMembers]
      split <;> simp only [List.length_cons] <;> omega

theorem length_counterpartMembers : ∀ fs : List (Str × Json),
    (counterpartMembers fs).length = fs.length
  | [] => rfl
  | (_, _) :: fs => congrArg (· + 1) (length_counterpartMembers fs)

mutual

/-- What a script reads is the value itself if it can have it. -/
theorem received_eq_iff : ∀ v : Json,
    received v = counterpart v ↔ Exact v
  | .null | .bool _ | .float _ | .str _ => by simp [received, counterpart, Exact]
  | .int n => by
      simp only [received, counterpart, Exact, JsValue.number.injEq]
      exact roundFloat_int_iff n
  | .arr vs => by
      simp only [received, counterpart, Exact, JsValue.array.injEq]
      exact receivedItems_eq_iff vs
  | .obj fs => by
      simp only [received, counterpart, Exact, JsValue.object.injEq]
      exact receivedMembers_eq_iff fs

theorem receivedItems_eq_iff : ∀ vs : List Json,
    receivedItems vs = counterpartItems vs ↔ ExactItems vs
  | [] => iff_of_true rfl trivial
  | v :: vs => by
      simp only [receivedItems, counterpartItems, ExactItems, List.cons.injEq]
      exact and_congr (received_eq_iff v) (receivedItems_eq_iff vs)

theorem receivedMembers_eq_iff : ∀ fs : List (Str × Json),
    receivedMembers fs = counterpartMembers fs ↔ ExactMembers fs
  | [] => iff_of_true rfl trivial
  | (k, v) :: fs => by
      by_cases hk : k = protoKey
      · -- a member is lost
        refine iff_of_false (fun h => ?_) fun h => h.1 hk
        have hlen := congrArg List.length h
        have hle := @length_receivedMembers fs
        simp only [receivedMembers, hk, if_true, counterpartMembers, List.length_cons,
          length_counterpartMembers] at hlen
        omega
      · simp only [receivedMembers, hk, if_false, counterpartMembers, ExactMembers,
          List.cons.injEq, Prod.mk.injEq, true_and, ne_eq, not_false_eq_true]
        exact and_congr (received_eq_iff v) (receivedMembers_eq_iff fs)

end

/-! ## The page and its graph -/

theorem renderHtml_eq (laws : NumberLaws lib) (t : Template) {v : Json} (hv : Held v) :
    renderHtml lib t.text v = t.head ++ (written lib v ++ t.rest) := by
  rw [renderHtml, replaceFirst, t.split, escapeTags_eq_written laws hv]
  rfl

/-- **A graph is inlined if and only if its texts do not end in a script tag inside a comment, and
a script can have its integers and keys.** -/
theorem inlined_iff (laws : NumberLaws lib) (t : Template) (fs : List (Str × Json))
    (h : Held (.obj fs)) :
    Inlined lib t (.obj fs) ↔ depthAfter (.obj fs) ≠ .nested ∧ Exact (.obj fs) := by
  have hrender := renderHtml_eq laws t h
  have hscript : afterScript .data (written lib (.obj fs) ++ t.rest) = some ('>' :: t.foot) ↔
      depthAfter (.obj fs) ≠ .nested := by
    have hscan := afterScript_eq_scan (s := .data) trivial (written lib (.obj fs) ++ t.rest)
    rw [hscan]
    exact (iff_of_eq (congrArg (· = _) (scan_graph laws h t.rest))).trans (scan_quiet_iff t.quiet)
  have hliteral : literal (written lib (.obj fs)) = some (counterpart (.obj fs)) ↔
      Exact (.obj fs) := by
    rw [literal_written laws h, Option.some.injEq]
    exact received_eq_iff (.obj fs)
  constructor
  · rintro ⟨data, hdata, hend, hlit⟩
    rw [hrender, List.append_cancel_left_eq, List.append_cancel_right_eq] at hdata
    subst hdata
    exact ⟨hscript.mp hend, hliteral.mp hlit⟩
  · rintro ⟨hdepth, hexact⟩
    exact ⟨_, hrender, hscript.mpr hdepth, hliteral.mpr hexact⟩

end Literal

/-! ## Two pages -/

/-- A number of digits and an exponent of ten. -/
def spelledExp (neg : Bool) (n j : ℕ) : Number :=
  { spelledNat neg n with
    exponent := some ⟨'e', ['-'], Nat.toDigits 10 j, .inl rfl, .inr (.inl rfl),
      Nat.toDigits_ne_nil, isDigit_toDigits⟩ }

theorem number_spelledExp (neg : Bool) (n j : ℕ) :
    (spelledExp neg n j).parts.number = (if neg then -(n : ℚ) else n) * 10 ^ (-(j : ℤ)) := by
  simp [spelledExp, spelledNat, Number.parts, Parts.number, Parts.mantissa, Exponent.value,
    natOf_toDigits]

/-- Every double is written with finitely many digits. -/
theorem exists_number_of_isDouble {q : ℚ} (h : IsDouble q) :
    ∃ k : Number, ¬ (k.fraction = [] ∧ k.exponent = none) ∧ k.parts.number = q := by
  obtain ⟨m, e, -, -, -, rfl⟩ := h
  obtain ⟨a, j, ha⟩ : ∃ (a : ℤ) (j : ℕ), (m : ℚ) * 2 ^ e = a * 10 ^ (-(j : ℤ)) := by
    cases e with
    | ofNat e => exact ⟨m * 2 ^ e, 0, by simp⟩
    | negSucc e =>
        refine ⟨m * 5 ^ (e + 1), e + 1, ?_⟩
        have h10 : (10 : ℚ) = 2 * 5 := by norm_num
        rw [zpow_negSucc, zpow_neg, zpow_natCast, h10, mul_pow]
        push_cast
        field_simp
  refine ⟨spelledExp (decide (a < 0)) a.natAbs j, by simp [spelledExp], ?_⟩
  rw [number_spelledExp, ha]
  congr 1
  rw [Nat.cast_natAbs]
  by_cases hneg : a < 0
  · simp [hneg, abs_of_neg hneg]
  · simp [hneg, abs_of_nonneg (not_lt.mp hneg)]

section Exact
open Classical

/-- The text of a double, with finitely many digits. -/
noncomputable def exactRepr (q : ℚ) : Str :=
  if h : IsDouble q then (Classical.choose (exists_number_of_isDouble h)).text else []

/-- The library, with all digits of every float. -/
noncomputable def exactLib : StdLib :=
  { asciiLib with
    floatRepr := fun x => match x with
      | .fin q => exactRepr q
      | _ => [] }

theorem exact_laws : NumberLaws exactLib where
  repr q h := by
    obtain ⟨hfloat, hnumber⟩ := Classical.choose_spec (exists_number_of_isDouble h)
    refine ⟨Classical.choose (exists_number_of_isDouble h), dif_pos h, hfloat, ?_⟩
    rw [hnumber]
    exact Json.roundFloat_of_isDouble h

end Exact

/-- A small page. -/
def smallPage : Template where
  text := "<script>const G = /*RELAY_GRAPH*/null;\n</script>\n".toList
  head := "<script>const G = ".toList
  script := ";\n".toList
  foot := "\n".toList
  split := by decide +kernel
  quiet := ⟨by decide +kernel, by decide +kernel, by decide +kernel, by decide +kernel⟩

/-- A graph with one text. -/
def graphOf (goal : Str) : List (Str × Json) :=
  [("version".toList, .int 1), ("goal".toList, .str goal)]

theorem held_graphOf (goal : Str) : Held (.obj (graphOf goal)) := by
  refine ⟨?_, trivial, trivial, trivial⟩
  simp [graphOf]

/-- The case of a goal that closes the script and opens another one. -/
theorem inlined_iff_closing :
    Inlined exactLib smallPage
      (.obj (graphOf "</script><script>alert(1)</script>".toList)) := by
  refine (inlined_iff exact_laws smallPage _ (held_graphOf _)).mpr ⟨by decide +kernel, ?_⟩
  refine ⟨by decide, ⟨1, 0, by norm_num, by norm_num, by norm_num, by norm_num⟩, by decide,
    trivial, trivial⟩

/-- A goal with a comment and a script tag in it keeps the script open. -/
theorem inlined_breaks :
    Held (.obj (graphOf "<!--<script>".toList)) ∧
      ¬ Inlined exactLib smallPage (.obj (graphOf "<!--<script>".toList)) := by
  refine ⟨held_graphOf _, ?_⟩
  rintro ⟨data, hdata, hend, -⟩
  rw [renderHtml_eq exact_laws smallPage (held_graphOf _), List.append_cancel_left_eq,
    List.append_cancel_right_eq] at hdata
  subst hdata
  have hopen : afterScript .data (written exactLib (.obj (graphOf "<!--<script>".toList)) ++
      smallPage.rest) = none := by
    decide +kernel
  rw [hopen] at hend
  cases hend

end HorizonRelay
