import HorizonRelay.Lib.Json

/-!
# Token log-probabilities

How sure a model was of the tokens that spell one field of its JSON output.

## Main definitions

* `Token`, `TokenStats` — what a provider attaches, and its summary.
* `valueSpan`, `answerTokenStats` — where a field's value stands, and its summary.
-/

namespace HorizonRelay

open Py

/-- One token of an output: its text and its log-probability. -/
structure Token : Type where
  t : Str
  lp : ℚ
  deriving DecidableEq

/-- The summary of the tokens that spell a field's value. -/
structure TokenStats : Type where
  /-- Whether the field was found; otherwise the whole output is summarized. -/
  spanFound : Bool
  count : ℕ
  meanLogprob : ℚ
  prob : ℚ
  hesitation : ℚ
  minToken : Str
  deriving DecidableEq

/-- Where the closing quote of a string is, scanning from offset `i`: a backslash skips
the character after it. -/
def closingQuote : Str → ℕ → ℕ
  | [], i => i
  | ['\\'], i => i + 2
  | '\\' :: _ :: rest, i => closingQuote rest (i + 2)
  | c :: rest, i => if c = '"' then i else closingQuote rest (i + 1)

/-- What follows `"field"\s*:\s*` at the front of a text, with its offset. -/
def fieldValue (field : Str) (s : Str) (i : ℕ) : Option (Str × ℕ) :=
  let key := '"' :: field ++ ['"']
  if key.isPrefixOf s then
    let rest := s.drop key.length
    let gap := rest.takeWhile isSpace
    match rest.dropWhile isSpace with
    | ':' :: rest =>
        let gap' := rest.takeWhile isSpace
        some (rest.dropWhile isSpace, i + key.length + gap.length + 1 + gap'.length)
    | _ => none
  else none

/-- The first place of a text where the field's value begins. -/
def findField (field : Str) : Str → ℕ → Option (Str × ℕ)
  | [], i => fieldValue field [] i
  | c :: rest, i => (fieldValue field (c :: rest) i).or (findField field rest (i + 1))

/-- Character span of a JSON field's value, without its quotes. -/
def valueSpan (text field : Str) : Option (ℕ × ℕ) :=
  (findField field text 0).map fun (rest, start) =>
    match rest with
    | '"' :: rest => (start + 1, min (closingQuote rest (start + 1)) text.length)
    | rest => (start, start + (rest.takeWhile fun c => !(",\x7d\n".toList.contains c)).length)

/-- The tokens of a list with the span of characters each covers. -/
def tokenOffsets : List Token → ℕ → List (Token × ℕ × ℕ)
  | [], _ => []
  | t :: ts, p => (t, p, p + t.t.length) :: tokenOffsets ts (p + t.t.length)

/-- Summary of the tokens that spell the field's value. -/
def answerTokenStats (lib : StdLib) (tokens : List Token)
    (field : Str := "answer".toList) : Option TokenStats :=
  let text := (tokens.map Token.t).flatten
  let visible (t : Token) : Bool := !t.t.strip.isEmpty
  let span := valueSpan text field
  let chosen := match span with
    | some (lo, hi) => ((tokenOffsets tokens 0).filter fun (t, a, b) =>
        a < hi && lo < b && visible t).map Prod.fst
    | none => tokens.filter visible
  match chosen with
  | [] => none
  | first :: rest =>
      let n : ℚ := chosen.length
      let meanLp := (chosen.map Token.lp).sum / n
      let weakest := rest.foldl (fun w t => if t.lp < w.lp then t else w) first
      some {
        spanFound := span.isSome
        count := chosen.length
        meanLogprob := roundTo 4 meanLp
        prob := roundTo 4 (lib.exp meanLp)
        hesitation := roundTo 4 ((chosen.countP fun t => lib.exp t.lp < 1 / 2) / n)
        minToken := weakest.t }

end HorizonRelay
