import HorizonRelay.Lib.Infix
import Mathlib.Data.List.TakeWhile

/-!
# The end of a script element

How an HTML tokenizer finds the end of a script element.  From `<!--` on the text is escaped,
and after a `<script` tag there it is doubly escaped: an end tag then only leads back.

## Main definitions

* `ScriptState`, `ScriptState.step` — the states of the tokenizer and what a character does.
* `afterScript` — what follows the name of the end tag that ends the element.
* `Depth`, `Depth.mark`, `scan` — the same, by what begins at each place of the text.
* `Quiet` — a text in which nothing begins.

## Main results

* `afterScript_eq_scan` — both find the same end.
* `scan_quiet_iff` — an end tag after a quiet text ends the element unless it is doubly escaped.
-/

namespace Html

open Infix

/-- The characters that end the name of a tag. -/
def isBreak (c : Char) : Bool :=
  c = '\t' || c = '\n' || c = '\x0c' || c = ' ' || c = '/' || c = '>'

/-- The name `script`, without regard to case. -/
def isScript (name : List Char) : Bool := name.map Char.toLower = "script".toList

/-- How deep the text is escaped. -/
inductive Depth : Type
  | script
  | comment
  | nested
  deriving DecidableEq

/-- The states of a tokenizer in a script element; a buffer holds the letters of a tag's name. -/
inductive ScriptState : Type
  | data
  | lessThan
  | endTagOpen
  | endTagName (buffer : List Char)
  | escapeStart
  | escapeStartDash
  | escaped
  | escapedDash
  | escapedDashDash
  | escapedLessThan
  | escapedEndTagOpen
  | escapedEndTagName (buffer : List Char)
  | doubleEscapeStart (buffer : List Char)
  | doubleEscaped
  | doubleEscapedDash
  | doubleEscapedDashDash
  | doubleEscapedLessThan
  | doubleEscapeEnd (buffer : List Char)
  deriving DecidableEq

namespace ScriptState

/-- A character in the state of its depth; other states reconsume characters there. -/
def consume : Depth → Char → ScriptState
  | .script, c => if c = '<' then lessThan else data
  | .comment, c => if c = '-' then escapedDash else if c = '<' then escapedLessThan else escaped
  | .nested, c =>
      if c = '-' then doubleEscapedDash
      else if c = '<' then doubleEscapedLessThan else doubleEscaped

/-- The next state; `none` where the name of the element's end tag ends. -/
def step : ScriptState → Char → Option ScriptState
  | data, c => some (consume .script c)
  | lessThan, c =>
      some (if c = '/' then endTagOpen else if c = '!' then escapeStart else consume .script c)
  | endTagOpen, c => some (if c.isAlpha then endTagName [c] else consume .script c)
  | endTagName b, c =>
      if c.isAlpha then some (endTagName (b ++ [c]))
      else if isScript b && isBreak c then none
      else some (consume .script c)
  | escapeStart, c => some (if c = '-' then escapeStartDash else consume .script c)
  | escapeStartDash, c => some (if c = '-' then escapedDashDash else consume .script c)
  | escaped, c => some (consume .comment c)
  | escapedDash, c => some (if c = '-' then escapedDashDash else consume .comment c)
  | escapedDashDash, c =>
      some (if c = '-' then escapedDashDash else if c = '>' then data else consume .comment c)
  | escapedLessThan, c =>
      some (if c = '/' then escapedEndTagOpen
        else if c.isAlpha then doubleEscapeStart [c] else consume .comment c)
  | escapedEndTagOpen, c => some (if c.isAlpha then escapedEndTagName [c] else consume .comment c)
  | escapedEndTagName b, c =>
      if c.isAlpha then some (escapedEndTagName (b ++ [c]))
      else if isScript b && isBreak c then none
      else some (consume .comment c)
  | doubleEscapeStart b, c =>
      some (if c.isAlpha then doubleEscapeStart (b ++ [c])
        else if isBreak c then (if isScript b then doubleEscaped else escaped)
        else consume .comment c)
  | doubleEscaped, c => some (consume .nested c)
  | doubleEscapedDash, c => some (if c = '-' then doubleEscapedDashDash else consume .nested c)
  | doubleEscapedDashDash, c =>
      some (if c = '-' then doubleEscapedDashDash else if c = '>' then data else consume .nested c)
  | doubleEscapedLessThan, c => some (if c = '/' then doubleEscapeEnd [] else consume .nested c)
  | doubleEscapeEnd b, c =>
      some (if c.isAlpha then doubleEscapeEnd (b ++ [c])
        else if isBreak c then (if isScript b then escaped else doubleEscaped)
        else consume .nested c)

end ScriptState

/-- What follows the name of the end tag that ends the element; `none` where the text does not
end it. -/
def afterScript : ScriptState → List Char → Option (List Char)
  | _, [] => none
  | s, c :: rest =>
      match s.step c with
      | none => some (c :: rest)
      | some s => afterScript s rest

/-! ## By what begins at a place -/

/-- The name of a script tag, and a character that ends it. -/
def opensName (x : List Char) : Bool :=
  isScript (x.takeWhile Char.isAlpha) && (x.dropWhile Char.isAlpha).head?.any isBreak

def isStartTag (x : List Char) : Bool := ['<'].isPrefixOf x && opensName (x.drop 1)

def isEndTag (x : List Char) : Bool := ['<', '/'].isPrefixOf x && opensName (x.drop 2)

/-- What begins at this place changes the depth, or ends the element. -/
def Depth.mark : Depth → List Char → Option Depth
  | .script, x =>
      if isEndTag x then none
      else some (if ['<', '!', '-', '-'].isPrefixOf x then .comment else .script)
  | .comment, x =>
      if isEndTag x then none
      else some (if ['-', '-', '>'].isPrefixOf x then .script
        else if isStartTag x then .nested else .comment)
  | .nested, x =>
      some (if ['-', '-', '>'].isPrefixOf x then .script
        else if isEndTag x then .comment else .nested)

/-- What follows the name of the end tag that ends the element. -/
def scan : Depth → List Char → Option (List Char)
  | _, [] => none
  | d, c :: rest =>
      match d.mark (c :: rest) with
      | none => some ((c :: rest).drop 2 |>.dropWhile Char.isAlpha)
      | some d => scan d rest

namespace ScriptState

/-- The depth at which a state began. -/
def depth : ScriptState → Depth
  | data | lessThan | endTagOpen | endTagName _ | escapeStart | escapeStartDash => .script
  | escaped | escapedDash | escapedDashDash | escapedLessThan | escapedEndTagOpen
  | escapedEndTagName _ | doubleEscapeStart _ => .comment
  | doubleEscaped | doubleEscapedDash | doubleEscapedDashDash | doubleEscapedLessThan
  | doubleEscapeEnd _ => .nested

/-- What a state has read of something that may begin. -/
def pending : ScriptState → List Char
  | data | escaped | doubleEscaped => []
  | lessThan | escapedLessThan | doubleEscapedLessThan => ['<']
  | endTagOpen | escapedEndTagOpen => ['<', '/']
  | endTagName b | escapedEndTagName b | doubleEscapeEnd b => '<' :: '/' :: b
  | escapeStart => ['<', '!']
  | escapeStartDash => ['<', '!', '-']
  | escapedDash | doubleEscapedDash => ['-']
  | escapedDashDash | doubleEscapedDashDash => ['-', '-']
  | doubleEscapeStart b => '<' :: b

/-- A buffer holds letters. -/
def Lettered : ScriptState → Prop
  | endTagName b | escapedEndTagName b | doubleEscapeEnd b => ∀ c ∈ b, c.isAlpha = true
  | doubleEscapeStart b => b ≠ [] ∧ ∀ c ∈ b, c.isAlpha = true
  | _ => True

end ScriptState

variable {d : Depth} {s s' : ScriptState} {c : Char} {b t : List Char}

/-! ## Names -/

theorem takeWhile_letters (hb : ∀ c ∈ b, c.isAlpha = true) (hc : c.isAlpha = false) :
    (b ++ c :: t).takeWhile Char.isAlpha = b ∧ (b ++ c :: t).dropWhile Char.isAlpha = c :: t := by
  rw [List.takeWhile_append_of_pos hb, List.dropWhile_append_of_pos hb]
  simp [hc]

/-- A name is ended by the character after its letters. -/
theorem opensName_letters (hb : ∀ c ∈ b, c.isAlpha = true) (hc : c.isAlpha = false) :
    opensName (b ++ c :: t) = (isScript b && isBreak c) := by
  obtain ⟨htake, hdrop⟩ := takeWhile_letters (t := t) hb hc
  simp [opensName, htake, hdrop]

theorem opensName_all (hb : ∀ c ∈ b, c.isAlpha = true) : opensName b = false := by
  have hdrop : b.dropWhile Char.isAlpha = [] := List.dropWhile_eq_nil_iff.mpr hb
  simp [opensName, hdrop]

/-! ## Places where nothing begins -/

theorem scan_of_mark {d' : Depth} (h : d.mark (c :: t) = some d') :
    scan d (c :: t) = scan d' t := by
  rw [scan, h]

/-- Nothing begins with a character other than `<` and `-`. -/
theorem mark_plain (hlt : c ≠ '<') (hdash : c ≠ '-') (t : List Char) :
    d.mark (c :: t) = some d := by
  cases d <;> simp [Depth.mark, isEndTag, isStartTag, List.isPrefixOf, hlt.symm, hdash.symm]

theorem scan_plain (hlt : c ≠ '<') (hdash : c ≠ '-') : scan d (c :: t) = scan d t :=
  scan_of_mark (mark_plain hlt hdash t)

theorem ne_of_isAlpha {e : Char} (hc : c.isAlpha = true) (he : e.isAlpha = false) : c ≠ e := by
  rintro rfl
  simp [hc] at he

theorem scan_letters (hb : ∀ c ∈ b, c.isAlpha = true) : scan d (b ++ t) = scan d t := by
  induction b with
  | nil => rfl
  | cons c b ih =>
      have hc := hb c (by simp)
      have hlt := ne_of_isAlpha hc (e := '<') (by decide)
      have hdash := ne_of_isAlpha hc (e := '-') (by decide)
      rw [List.cons_append, scan_plain hlt hdash]
      exact ih fun e he => hb e (by simp [he])

theorem opensName_of_not_isAlpha (hc : c.isAlpha = false) : opensName (c :: t) = false := by
  have h := opensName_letters (b := []) (t := t) (by simp) hc
  exact h.trans rfl

/-- In the escaped text and in the script alike, an end tag begins with `</` and a letter. -/
theorem scan_slash (hc : c.isAlpha = false) :
    scan d ('<' :: '/' :: c :: t) = scan d (c :: t) := by
  have hname := opensName_of_not_isAlpha (t := t) hc
  have hslash : opensName ('/' :: c :: t) = false := opensName_of_not_isAlpha (by decide)
  have hmark : d.mark ('<' :: '/' :: c :: t) = some d := by
    cases d <;> simp [Depth.mark, isEndTag, isStartTag, List.isPrefixOf, hname, hslash]
  rw [scan_of_mark hmark, scan_plain (by decide) (by decide)]

/-- An end tag ends the element, except in doubly escaped text. -/
theorem scan_endTag (hd : d ≠ .nested) (hb : ∀ c ∈ b, c.isAlpha = true) (hc : c.isAlpha = false) :
    scan d ('<' :: '/' :: (b ++ c :: t)) =
      if isScript b && isBreak c then some (c :: t) else scan d (c :: t) := by
  have hname := opensName_letters (t := t) hb hc
  obtain ⟨-, hdrop⟩ := takeWhile_letters (t := t) hb hc
  have hslash : opensName ('/' :: (b ++ c :: t)) = false := opensName_of_not_isAlpha (by decide)
  by_cases hend : (isScript b && isBreak c) = true
  · have hmark : d.mark ('<' :: '/' :: (b ++ c :: t)) = none := by
      cases d with
      | nested => exact absurd rfl hd
      | _ => simp only [Depth.mark, isEndTag, List.isPrefixOf, List.drop, hname, hend]; simp
    simp only [scan, hmark, hend, if_true, List.drop, hdrop]
  · have hno : (isScript b && isBreak c) = false := by simpa using hend
    have hmark : d.mark ('<' :: '/' :: (b ++ c :: t)) = some d := by
      cases d <;> simp [Depth.mark, isEndTag, isStartTag, List.isPrefixOf, hname, hno, hslash]
    rw [scan_of_mark hmark, scan_plain (by decide) (by decide), scan_letters hb, hno]
    rfl

/-- In doubly escaped text an end tag leads back. -/
theorem scan_nested_endTag (hb : ∀ c ∈ b, c.isAlpha = true) (hc : c.isAlpha = false) :
    scan .nested ('<' :: '/' :: (b ++ c :: t)) =
      if isScript b && isBreak c then scan .comment (c :: t) else scan .nested (c :: t) := by
  have hname := opensName_letters (t := t) hb hc
  by_cases hend : (isScript b && isBreak c) = true
  · have hmark : Depth.nested.mark ('<' :: '/' :: (b ++ c :: t)) = some .comment := by
      simp only [Depth.mark, isEndTag, List.isPrefixOf, List.drop, hname, hend]
      simp
    rw [scan_of_mark hmark, if_pos hend, scan_plain (by decide) (by decide), scan_letters hb]
  · have hno : (isScript b && isBreak c) = false := by simpa using hend
    have hmark : Depth.nested.mark ('<' :: '/' :: (b ++ c :: t)) = some .nested := by
      simp only [Depth.mark, isEndTag, List.isPrefixOf, List.drop, hname, hno]
      simp
    rw [scan_of_mark hmark, scan_plain (by decide) (by decide), scan_letters hb, hno]
    rfl

/-- In escaped text a start tag leads deeper. -/
theorem scan_startTag (hne : b ≠ []) (hb : ∀ c ∈ b, c.isAlpha = true) (hc : c.isAlpha = false) :
    scan .comment ('<' :: (b ++ c :: t)) =
      if isScript b && isBreak c then scan .nested (c :: t) else scan .comment (c :: t) := by
  have hname := opensName_letters (t := t) hb hc
  obtain ⟨e, b', rfl⟩ := List.exists_cons_of_ne_nil hne
  have he : ('/' == e) = false := by
    simpa using (ne_of_isAlpha (hb e (by simp)) (e := '/') (by decide)).symm
  have hmark : Depth.comment.mark ('<' :: (e :: b' ++ c :: t)) =
      some (if isScript (e :: b') && isBreak c then .nested else .comment) := by
    simp only [Depth.mark, isEndTag, isStartTag, List.isPrefixOf, List.drop, hname]
    simp [List.isPrefixOf, he]
  rw [scan_of_mark hmark]
  by_cases hend : (isScript (e :: b') && isBreak c) = true
  · rw [if_pos hend, if_pos hend, scan_letters hb]
  · rw [if_neg hend, if_neg hend, scan_letters hb]

/-! ## One character -/

namespace ScriptState

@[simp] theorem depth_consume (d : Depth) (c : Char) : (consume d c).depth = d := by
  cases d <;> simp only [consume] <;> repeat' split
  all_goals rfl

theorem lettered_consume (d : Depth) (c : Char) : (consume d c).Lettered := by
  cases d <;> simp only [consume] <;> repeat' split
  all_goals trivial

end ScriptState

open ScriptState in
theorem scan_consume (d : Depth) (c : Char) (t : List Char) :
    scan d (c :: t) = scan d ((consume d c).pending ++ t) := by
  by_cases hlt : c = '<'
  · subst hlt
    cases d <;> rfl
  · by_cases hdash : c = '-'
    · subst hdash
      cases d with
      | script => exact scan_of_mark rfl
      | _ => rfl
    · rw [scan_plain hlt hdash]
      cases d <;> simp [consume, hlt, hdash, pending]

theorem scan_break (hc : isBreak c = true) : scan d (c :: t) = scan d t := by
  refine scan_plain ?_ ?_
  · rintro rfl
    cases hc
  · rintro rfl
    cases hc

theorem forall_letters (hb : ∀ c ∈ b, c.isAlpha = true) (hc : c.isAlpha = true) :
    ∀ e ∈ b ++ [c], e.isAlpha = true := by
  intro e he
  rcases List.mem_append.mp he with he | he
  · exact hb e he
  · obtain rfl : e = c := by simpa using he
    exact hc

/-! ### What does not go on -/

theorem scan_lessThan (hslash : c ≠ '/') (hbang : c ≠ '!') :
    scan .script ('<' :: c :: t) = scan .script (c :: t) :=
  scan_of_mark (by simp [Depth.mark, isEndTag, List.isPrefixOf, hslash.symm, hbang.symm])

theorem scan_escapeStart (hdash : c ≠ '-') :
    scan .script ('<' :: '!' :: c :: t) = scan .script (c :: t) := by
  have hmark : Depth.script.mark ('<' :: '!' :: c :: t) = some .script := by
    simp [Depth.mark, isEndTag, List.isPrefixOf, hdash.symm]
  rw [scan_of_mark hmark, scan_plain (by decide) (by decide)]

theorem scan_escapeStartDash (hdash : c ≠ '-') :
    scan .script ('<' :: '!' :: '-' :: c :: t) = scan .script (c :: t) := by
  have hmark : Depth.script.mark ('<' :: '!' :: '-' :: c :: t) = some .script := by
    simp [Depth.mark, isEndTag, List.isPrefixOf, hdash.symm]
  rw [scan_of_mark hmark, scan_plain (by decide) (by decide)]
  exact scan_of_mark (by simp [Depth.mark, isEndTag, List.isPrefixOf])

/-- `<!--` escapes the text; its dashes may be part of what ends that. -/
theorem scan_opening : scan .script ('<' :: '!' :: '-' :: '-' :: t) =
    scan .comment ('-' :: '-' :: t) := by
  have hmark : Depth.script.mark ('<' :: '!' :: '-' :: '-' :: t) = some .comment := by
    simp [Depth.mark, isEndTag, List.isPrefixOf]
  rw [scan_of_mark hmark, scan_plain (by decide) (by decide)]

theorem scan_dash (hd : d ≠ .script) (hdash : c ≠ '-') :
    scan d ('-' :: c :: t) = scan d (c :: t) := by
  refine scan_of_mark ?_
  cases d with
  | script => exact absurd rfl hd
  | _ => simp [Depth.mark, isEndTag, isStartTag, List.isPrefixOf, hdash.symm]

theorem scan_dashDash (hd : d ≠ .script) (hgt : c ≠ '>') :
    scan d ('-' :: '-' :: c :: t) = scan d ('-' :: c :: t) := by
  refine scan_of_mark ?_
  cases d with
  | script => exact absurd rfl hd
  | _ => simp [Depth.mark, isEndTag, isStartTag, List.isPrefixOf, hgt.symm]

/-- `-->` leads back to the script. -/
theorem scan_closing (hd : d ≠ .script) :
    scan d ('-' :: '-' :: '>' :: t) = scan .script t := by
  have hmark : d.mark ('-' :: '-' :: '>' :: t) = some .script := by
    cases d with
    | script => exact absurd rfl hd
    | _ => simp [Depth.mark, isEndTag, List.isPrefixOf]
  have hdash : scan .script ('-' :: '>' :: t) = scan .script ('>' :: t) :=
    scan_of_mark (by simp [Depth.mark, isEndTag, List.isPrefixOf])
  rw [scan_of_mark hmark, hdash, scan_plain (by decide) (by decide)]

theorem scan_escapedLessThan (hslash : c ≠ '/') (hc : c.isAlpha = false) :
    scan .comment ('<' :: c :: t) = scan .comment (c :: t) := by
  refine scan_of_mark ?_
  simp [Depth.mark, isEndTag, isStartTag, List.isPrefixOf, hslash.symm,
    opensName_of_not_isAlpha hc]

theorem scan_doubleEscapedLessThan (hslash : c ≠ '/') :
    scan .nested ('<' :: c :: t) = scan .nested (c :: t) :=
  scan_of_mark (by simp [Depth.mark, isEndTag, List.isPrefixOf, hslash.symm])

/-! ## Both find the same end -/

open ScriptState in
/-- One character is taken by the state as by the text it stands for. -/
theorem scan_step (h : s.Lettered) (c : Char) (t : List Char) :
    scan s.depth (s.pending ++ c :: t) =
      (s.step c).elim (some (c :: t)) fun s' => scan s'.depth (s'.pending ++ t) := by
  have hconsume : ∀ d, scan d (c :: t) =
      (some (consume d c)).elim (some (c :: t)) fun s' => scan s'.depth (s'.pending ++ t) := by
    intro d
    rw [Option.elim_some, depth_consume]
    exact scan_consume d c t
  cases s with
  | data => exact hconsume .script
  | escaped => exact hconsume .comment
  | doubleEscaped => exact hconsume .nested
  | lessThan =>
      by_cases hslash : c = '/'
      · subst hslash
        rfl
      · by_cases hbang : c = '!'
        · subst hbang
          rfl
        · simp only [step, if_neg hslash, if_neg hbang]
          exact (scan_lessThan hslash hbang).trans (hconsume .script)
  | endTagOpen =>
      by_cases hc : c.isAlpha = true
      · simp [step, hc, depth, pending]
      · have hno : c.isAlpha = false := by simpa using hc
        simp only [step, if_neg hc]
        exact (scan_slash hno).trans (hconsume .script)
  | endTagName b =>
      by_cases hc : c.isAlpha = true
      · simp [step, hc, depth, pending]
      · have hno : c.isAlpha = false := by simpa using hc
        refine (scan_endTag (d := .script) (by decide) h hno).trans ?_
        simp only [step, if_neg hc]
        split
        · rfl
        · exact hconsume .script
  | escapeStart =>
      by_cases hdash : c = '-'
      · subst hdash
        rfl
      · simp only [step, if_neg hdash]
        exact (scan_escapeStart hdash).trans (hconsume .script)
  | escapeStartDash =>
      by_cases hdash : c = '-'
      · subst hdash
        exact scan_opening
      · simp only [step, if_neg hdash]
        exact (scan_escapeStartDash hdash).trans (hconsume .script)
  | escapedDash =>
      by_cases hdash : c = '-'
      · subst hdash
        rfl
      · simp only [step, if_neg hdash]
        exact (scan_dash (by decide) hdash).trans (hconsume .comment)
  | escapedDashDash =>
      by_cases hdash : c = '-'
      · subst hdash
        exact scan_dashDash (by decide) (by decide)
      · by_cases hgt : c = '>'
        · subst hgt
          exact scan_closing (by decide)
        · simp only [step, if_neg hdash, if_neg hgt]
          exact ((scan_dashDash (by decide) hgt).trans (scan_dash (by decide) hdash)).trans
            (hconsume .comment)
  | escapedLessThan =>
      by_cases hslash : c = '/'
      · subst hslash
        rfl
      · by_cases hc : c.isAlpha = true
        · simp [step, hslash, hc, depth, pending]
        · have hno : c.isAlpha = false := by simpa using hc
          simp only [step, if_neg hslash, if_neg hc]
          exact (scan_escapedLessThan hslash hno).trans (hconsume .comment)
  | escapedEndTagOpen =>
      by_cases hc : c.isAlpha = true
      · simp [step, hc, depth, pending]
      · have hno : c.isAlpha = false := by simpa using hc
        simp only [step, if_neg hc]
        exact (scan_slash hno).trans (hconsume .comment)
  | escapedEndTagName b =>
      by_cases hc : c.isAlpha = true
      · simp [step, hc, depth, pending]
      · have hno : c.isAlpha = false := by simpa using hc
        refine (scan_endTag (d := .comment) (by decide) h hno).trans ?_
        simp only [step, if_neg hc]
        split
        · rfl
        · exact hconsume .comment
  | doubleEscapeStart b =>
      by_cases hc : c.isAlpha = true
      · simp [step, hc, depth, pending]
      · have hno : c.isAlpha = false := by simpa using hc
        refine (scan_startTag h.1 h.2 hno).trans ?_
        by_cases hbreak : isBreak c = true
        · cases hname : isScript b <;> simp [step, hc, hbreak, hname, depth, pending,
            scan_break hbreak]
        · simp only [step, if_neg hc, hbreak, Bool.and_false, Bool.false_eq_true,
            if_false]
          exact hconsume .comment
  | doubleEscapedDash =>
      by_cases hdash : c = '-'
      · subst hdash
        rfl
      · simp only [step, if_neg hdash]
        exact (scan_dash (by decide) hdash).trans (hconsume .nested)
  | doubleEscapedDashDash =>
      by_cases hdash : c = '-'
      · subst hdash
        exact scan_dashDash (by decide) (by decide)
      · by_cases hgt : c = '>'
        · subst hgt
          exact scan_closing (by decide)
        · simp only [step, if_neg hdash, if_neg hgt]
          exact ((scan_dashDash (by decide) hgt).trans (scan_dash (by decide) hdash)).trans
            (hconsume .nested)
  | doubleEscapedLessThan =>
      by_cases hslash : c = '/'
      · subst hslash
        rfl
      · simp only [step, if_neg hslash]
        exact (scan_doubleEscapedLessThan hslash).trans (hconsume .nested)
  | doubleEscapeEnd b =>
      by_cases hc : c.isAlpha = true
      · simp [step, hc, depth, pending]
      · have hno : c.isAlpha = false := by simpa using hc
        refine (scan_nested_endTag h hno).trans ?_
        by_cases hbreak : isBreak c = true
        · cases hname : isScript b <;> simp [step, hc, hbreak, hname, depth, pending,
            scan_break hbreak]
        · simp only [step, if_neg hc, hbreak, Bool.and_false, Bool.false_eq_true,
            if_false]
          exact hconsume .nested

open ScriptState in
/-- Only letters come into a buffer. -/
theorem lettered_step (h : s.Lettered) (hs : s.step c = some s') : s'.Lettered := by
  have hone : c.isAlpha = true → ∀ e ∈ [c], e.isAlpha = true :=
    fun hc => forall_letters (b := []) (by simp) hc
  cases s with
  | endTagOpen | escapedEndTagOpen =>
      obtain rfl := Option.some.inj hs
      split
      · exact hone ‹_›
      · exact lettered_consume _ _
  | endTagName b | escapedEndTagName b =>
      simp only [step] at hs
      split at hs
      · obtain rfl := Option.some.inj hs
        exact forall_letters h ‹_›
      · split at hs
        · cases hs
        · obtain rfl := Option.some.inj hs
          exact lettered_consume _ _
  | escapedLessThan =>
      obtain rfl := Option.some.inj hs
      split
      · trivial
      · split
        · exact ⟨by simp, hone ‹_›⟩
        · exact lettered_consume _ _
  | doubleEscapeStart b =>
      obtain rfl := Option.some.inj hs
      split
      · exact ⟨by simp, forall_letters h.2 ‹_›⟩
      · repeat' split
        all_goals first | exact lettered_consume _ _ | trivial
  | doubleEscapeEnd b =>
      obtain rfl := Option.some.inj hs
      split
      · exact forall_letters h ‹_›
      · repeat' split
        all_goals first | exact lettered_consume _ _ | trivial
  | doubleEscapedLessThan =>
      obtain rfl := Option.some.inj hs
      split
      · exact fun e he => by simp at he
      · exact lettered_consume _ _
  | _ =>
      obtain rfl := Option.some.inj hs
      repeat' split
      all_goals first | exact lettered_consume _ _ | trivial

theorem scan_letters_eq_none (hb : ∀ c ∈ b, c.isAlpha = true) : scan d b = none := by
  have h := scan_letters (d := d) (t := []) hb
  rwa [List.append_nil] at h

theorem scan_tagName (hb : ∀ c ∈ b, c.isAlpha = true) : scan d ('<' :: '/' :: b) = none := by
  have hslash : opensName ('/' :: b) = false := opensName_of_not_isAlpha (by decide)
  have hmark : d.mark ('<' :: '/' :: b) = some d := by
    cases d <;> simp [Depth.mark, isEndTag, isStartTag, List.isPrefixOf, opensName_all hb, hslash]
  rw [scan_of_mark hmark, scan_plain (by decide) (by decide), scan_letters_eq_none hb]

/-- Nothing ends in what a state has read. -/
theorem scan_pending (h : s.Lettered) : scan s.depth s.pending = none := by
  cases s with
  | endTagName b | escapedEndTagName b | doubleEscapeEnd b => exact scan_tagName h
  | doubleEscapeStart b =>
      obtain ⟨e, b', rfl⟩ := List.exists_cons_of_ne_nil h.1
      have he : ('/' == e) = false := by
        simpa using (ne_of_isAlpha (h.2 e (by simp)) (e := '/') (by decide)).symm
      have hmark : Depth.comment.mark ('<' :: e :: b') = some .comment := by
        simp [Depth.mark, isEndTag, isStartTag, List.isPrefixOf, he, opensName_all h.2]
      exact (scan_of_mark hmark).trans (scan_letters_eq_none h.2)
  | _ => rfl

/-- **The states of the tokenizer find the end of the element as the marks in the text do.** -/
theorem afterScript_eq_scan (h : s.Lettered) (t : List Char) :
    afterScript s t = scan s.depth (s.pending ++ t) := by
  induction t generalizing s with
  | nil => rw [List.append_nil, scan_pending h, afterScript]
  | cons c t ih =>
      rw [scan_step h, afterScript]
      cases hs : s.step c with
      | none => rfl
      | some s' => exact ih (lettered_step h hs)

/-! ## Quiet texts -/

/-- A text in which nothing begins that changes the depth or ends the element. -/
structure Quiet (x : List Char) : Prop where
  opening : Free ['<', '!', '-', '-'] x
  closing : Free ['-', '-', '>'] x
  startTag : Free "<script".toList (x.map Char.toLower)
  endTag : Free "</script".toList (x.map Char.toLower)

theorem Quiet.tail {x : List Char} (h : Quiet (c :: x)) : Quiet x where
  opening := h.opening.part (List.suffix_cons c x).isInfix
  closing := h.closing.part (List.suffix_cons c x).isInfix
  startTag := h.startTag.part (List.suffix_cons c.toLower _).isInfix
  endTag := h.endTag.part (List.suffix_cons c.toLower _).isInfix

/-- A prefix does not go on with a character that is not in it. -/
theorem prefix_of_append_cons {p x : List Char} (hc : c ∉ p) (h : p <+: x ++ c :: t) :
    p <+: x := by
  obtain ⟨r, hr⟩ := h
  rcases List.append_eq_append_iff.mp hr with ⟨a, rfl, -⟩ | ⟨q, rfl, hq⟩
  · exact List.prefix_append p a
  · cases q with
    | nil => simp
    | cons e q =>
        obtain ⟨rfl, -⟩ := List.cons.inj hq
        exact absurd (by simp) hc

theorem takeWhile_append_cons {p : Char → Bool} (hc : p c = false) (x : List Char) :
    (x ++ c :: t).takeWhile p = x.takeWhile p := by
  induction x with
  | nil => simp [hc]
  | cons e x ih =>
      by_cases he : p e = true
      · simp [he, ih]
      · simp [he]

/-- A tag's name is part of the text. -/
theorem prefix_of_opensName {x : List Char} (h : opensName (x ++ '<' :: t) = true) :
    "script".toList <+: x.map Char.toLower := by
  simp only [opensName, isScript, Bool.and_eq_true, decide_eq_true_eq] at h
  rw [takeWhile_append_cons (by decide)] at h
  rw [← h.1]
  exact (List.takeWhile_prefix _).map Char.toLower

/-- In a quiet text before a tag nothing begins. -/
theorem Quiet.mark {x : List Char} (h : Quiet (c :: x)) :
    d.mark (c :: x ++ '<' :: t) = some d := by
  have hprefix : ∀ p : List Char, Free p (c :: x) → '<' ∉ p.tail → p ≠ [] →
      p.isPrefixOf (c :: x ++ '<' :: t) = false := by
    intro p hfree hmem hne
    rw [Bool.eq_false_iff, ne_eq, List.isPrefixOf_iff_prefix]
    intro hp
    obtain ⟨e, p', rfl⟩ := List.exists_cons_of_ne_nil hne
    obtain ⟨rfl, hp'⟩ := List.cons_prefix_cons.mp hp
    have hx := prefix_of_append_cons (by simpa using hmem) hp'
    exact hfree (List.cons_prefix_cons.mpr ⟨rfl, hx⟩).isInfix
  have hopening := hprefix _ h.opening (by decide) (by decide)
  have hclosing := hprefix _ h.closing (by decide) (by decide)
  have hstart : isStartTag (c :: x ++ '<' :: t) = false := by
    rw [Bool.eq_false_iff]
    intro htag
    simp only [isStartTag, List.cons_append, List.isPrefixOf, Bool.and_eq_true, beq_iff_eq,
      List.drop_succ_cons, List.drop_zero] at htag
    obtain ⟨⟨rfl, -⟩, hname⟩ := htag
    refine h.startTag (List.IsPrefix.isInfix ?_)
    exact List.cons_prefix_cons.mpr ⟨rfl, prefix_of_opensName hname⟩
  have hend : isEndTag (c :: x ++ '<' :: t) = false := by
    rw [Bool.eq_false_iff]
    intro htag
    cases x with
    | nil => simp [isEndTag, List.isPrefixOf] at htag
    | cons e x =>
        simp only [isEndTag, List.cons_append, List.isPrefixOf, Bool.and_eq_true, beq_iff_eq,
          List.drop_succ_cons, List.drop_zero] at htag
        obtain ⟨⟨rfl, rfl, -⟩, hname⟩ := htag
        refine h.endTag (List.IsPrefix.isInfix ?_)
        exact List.cons_prefix_cons.mpr ⟨rfl,
          List.cons_prefix_cons.mpr ⟨rfl, prefix_of_opensName hname⟩⟩
  cases d <;> simp only [Depth.mark, hopening, hclosing, hstart, hend, Bool.false_eq_true, if_false]

theorem Quiet.scan {x : List Char} (h : Quiet x) : scan d (x ++ '<' :: t) = scan d ('<' :: t) := by
  induction x with
  | nil => rfl
  | cons c x ih => exact (scan_of_mark h.mark).trans (ih h.tail)

/-- What follows the end is shorter. -/
theorem length_of_scan {x y : List Char} (h : scan d x = some y) : y.length < x.length := by
  induction x generalizing d with
  | nil => cases h
  | cons c x ih =>
      rw [scan] at h
      split at h
      · obtain rfl := Option.some.inj h
        have hdrop := (List.dropWhile_suffix Char.isAlpha (l := (c :: x).drop 2)).length_le
        simp only [List.length_drop, List.length_cons] at hdrop ⊢
        omega
      · exact (ih h).trans (by simp)

/-- The end tag of a script element. -/
def scriptEnd : List Char := "</script".toList

/-- **An end tag after a quiet text ends the element, at its own place, unless the text before is
doubly escaped.** -/
theorem scan_quiet_iff {x foot : List Char} (h : Quiet x) :
    scan d (x ++ (scriptEnd ++ '>' :: foot)) = some ('>' :: foot) ↔ d ≠ .nested := by
  have hletters : ∀ c ∈ "script".toList, c.isAlpha = true := List.all_eq_true.mp (by decide)
  have htag : scriptEnd ++ '>' :: foot = '<' :: '/' :: ("script".toList ++ '>' :: foot) := rfl
  have hname : (isScript "script".toList && isBreak '>') = true := by decide
  rw [htag, h.scan]
  by_cases hd : d = .nested
  · subst hd
    rw [scan_nested_endTag hletters (by decide), if_pos hname,
      scan_plain (by decide) (by decide)]
    refine iff_of_false (fun hfoot => ?_) (by simp)
    have hlen := length_of_scan hfoot
    rw [List.length_cons] at hlen
    omega
  · rw [scan_endTag hd hletters (by decide), if_pos hname]
    exact iff_of_true rfl hd

end Html
