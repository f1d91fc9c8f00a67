import HorizonRelay.Lib.Dict
import HorizonRelay.Lib.Json

/-!
# JSON texts

What `json.loads` makes of a text: the grammar of JSON, with the literals `NaN`, `Infinity`
and `-Infinity` besides.  A text is a list of code points without surrogates, so an escape
that names half a surrogate pair alone is read as U+FFFD.  Integers of any length are read;
Python refuses those of more than 4300 digits.

## Main definitions

* `stringBody`, `number` — the readers of strings and numbers.
* `value`, `items`, `members` — the readers of values, of what a list holds, and of what an
  object holds.
* `loads` — the reader of a whole text.
-/

namespace Py.JsonText

/-- White space between the parts of a JSON text. -/
def isBlank (c : Char) : Bool := c = ' ' || c = '\t' || c = '\n' || c = '\r'

/-- What follows the white space at the front of a text. -/
def skip (s : Str) : Str := s.dropWhile isBlank

/-! ## Strings -/

/-- The value of a hexadecimal digit. -/
def hexDigit (c : Char) : Option ℕ :=
  if '0' ≤ c ∧ c ≤ '9' then some (c.toNat - 48)
  else if 'a' ≤ c ∧ c ≤ 'f' then some (c.toNat - 87)
  else if 'A' ≤ c ∧ c ≤ 'F' then some (c.toNat - 55)
  else none

/-- The four hexadecimal digits at the front of a text. -/
def hex4 : Str → Option (ℕ × Str)
  | a :: b :: c :: d :: rest => do
      let a ← hexDigit a
      let b ← hexDigit b
      let c ← hexDigit c
      let d ← hexDigit d
      pure (((a * 16 + b) * 16 + c) * 16 + d, rest)
  | _ => none

/-- The first half of a surrogate pair. -/
def isHigh (n : ℕ) : Bool := 0xd800 ≤ n && n < 0xdc00

/-- The second half of a surrogate pair. -/
def isLow (n : ℕ) : Bool := 0xdc00 ≤ n && n < 0xe000

/-- The character two halves stand for. -/
def joined (high low : ℕ) : Char := Char.ofNat (0x10000 + (high - 0xd800) * 0x400 + (low - 0xdc00))

/-- The second half of a pair at the front of a text. -/
def lowHalf : Str → Option (ℕ × Str)
  | '\\' :: 'u' :: rest => (hex4 rest).filter fun (n, _) => isLow n
  | _ => none

/-- The character an escape stands for, from what follows `\u`. -/
def codePoint (s : Str) : Option (Char × Str) :=
  (hex4 s).map fun (n, rest) =>
    if isHigh n then
      match lowHalf rest with
      | some (m, rest) => (joined n m, rest)
      | none => ('\uFFFD', rest)
    else (if isLow n then '\uFFFD' else Char.ofNat n, rest)

/-- The character a one-letter escape stands for. -/
def letterEscape : Char → Option Char
  | '"' => some '"'
  | '\\' => some '\\'
  | '/' => some '/'
  | 'b' => some '\x08'
  | 'f' => some '\x0c'
  | 'n' => some '\n'
  | 'r' => some '\r'
  | 't' => some '\t'
  | _ => none

/-- The character an escape stands for, from what follows the backslash. -/
def escaped : Str → Option (Char × Str)
  | [] => none
  | c :: rest => if c = 'u' then codePoint rest else (letterEscape c).map fun d => (d, rest)

/-- A string, from what follows its opening quote: its text, and what follows its closing
quote. -/
def stringBody : ℕ → Str → Option (Str × Str)
  | 0, _ => none
  | _, [] => none
  | n + 1, c :: rest =>
      if c = '"' then some ([], rest)
      else if c = '\\' then do
        let (d, rest) ← escaped rest
        let (s, rest) ← stringBody n rest
        pure (d :: s, rest)
      else if c < ' ' then none
      else do
        let (s, rest) ← stringBody n rest
        pure (c :: s, rest)

/-! ## Numbers -/

def isDigit (c : Char) : Bool := '0' ≤ c && c ≤ '9'

/-- The value of a run of digits. -/
def natOf (digits : Str) : ℕ := digits.foldl (fun n c => 10 * n + (c.toNat - 48)) 0

/-- The parts of a number. -/
structure Parts : Type where
  neg : Bool
  whole : Str
  fraction : Str
  exponent : Option ℤ
  deriving DecidableEq

/-- The number of these digits, before its exponent. -/
def Parts.mantissa (p : Parts) : ℚ := (natOf (p.whole ++ p.fraction) : ℚ) / 10 ^ p.fraction.length

/-- The number these parts stand for. -/
def Parts.number (p : Parts) : ℚ :=
  (if p.neg then -p.mantissa else p.mantissa) * 10 ^ (p.exponent.getD 0)

/-- A number with a fraction or an exponent is a float, any other an integer. -/
def Parts.json (p : Parts) : Json :=
  if p.fraction = [] ∧ p.exponent = none then
    .int (if p.neg then -(natOf p.whole : ℤ) else natOf p.whole)
  else .float (Json.roundFloat p.number)

/-- `0|[1-9][0-9]*` at the front of a text. -/
def wholePart : Str → Option (Str × Str)
  | [] => none
  | c :: rest =>
      if c = '0' then some (['0'], rest)
      else if isDigit c then some (c :: rest.takeWhile isDigit, rest.dropWhile isDigit)
      else none

/-- `(\.[0-9]+)?`. -/
def fractionPart : Str → Str × Str
  | '.' :: rest =>
      if rest.takeWhile isDigit = [] then ([], '.' :: rest)
      else (rest.takeWhile isDigit, rest.dropWhile isDigit)
  | s => ([], s)

/-- The sign of an exponent. -/
def signPart : Str → ℤ × Str
  | '-' :: rest => (-1, rest)
  | '+' :: rest => (1, rest)
  | s => (1, s)

/-- `([eE][-+]?[0-9]+)?`. -/
def exponentPart (s : Str) : Option ℤ × Str :=
  match s with
  | [] => (none, s)
  | c :: rest =>
      if c = 'e' ∨ c = 'E' then
        let (sign, digits) := signPart rest
        if digits.takeWhile isDigit = [] then (none, s)
        else (some (sign * natOf (digits.takeWhile isDigit)), digits.dropWhile isDigit)
      else (none, s)

/-- `-?`. -/
def minusPart : Str → Bool × Str
  | '-' :: rest => (true, rest)
  | s => (false, s)

/-- The number at the front of a text. -/
def number (s : Str) : Option (Json × Str) :=
  let (neg, s) := minusPart s
  (wholePart s).map fun (whole, s) =>
    let (fraction, s) := fractionPart s
    let (exponent, s) := exponentPart s
    (Parts.json ⟨neg, whole, fraction, exponent⟩, s)

/-! ## Values -/

/-- The words that are values. -/
def words : List (Str × Json) :=
  [("null".toList, .null), ("true".toList, .bool true), ("false".toList, .bool false),
    ("NaN".toList, .float .nan), ("Infinity".toList, .float .posInf),
    ("-Infinity".toList, .float .negInf)]

/-- The word at the front of a text. -/
def word (s : Str) : Option (Json × Str) :=
  (words.find? fun w => w.1.isPrefixOf s).map fun w => (w.2, s.drop w.1.length)

mutual

/-- The value at the front of a text, and what follows it. -/
def value : ℕ → Str → Option (Json × Str)
  | 0, _ => none
  | _, [] => none
  | n + 1, c :: rest =>
      if c = '"' then (stringBody (rest.length + 1) rest).map fun (s, r) => (.str s, r)
      else if c = '[' then
        match skip rest with
        | ']' :: r => some (.arr [], r)
        | r => (items n r).map fun (vs, r) => (.arr vs, r)
      else if c = '{' then
        match skip rest with
        | '}' :: r => some (.obj [], r)
        | r => (members n r).map fun (fs, r) => (.obj (Dict.ofList fs).entries, r)
      else (number (c :: rest)).or (word (c :: rest))

/-- The items of a list, up to its closing bracket. -/
def items : ℕ → Str → Option (List Json × Str)
  | 0, _ => none
  | n + 1, s => do
      let (v, r) ← value n s
      match skip r with
      | ',' :: r => do
          let (vs, r) ← items n (skip r)
          pure (v :: vs, r)
      | ']' :: r => pure ([v], r)
      | _ => none

/-- The members of an object, up to its closing brace. -/
def members : ℕ → Str → Option (List (Str × Json) × Str)
  | 0, _ => none
  | _, [] => none
  | n + 1, c :: rest =>
      if c = '"' then do
        let (k, r) ← stringBody (rest.length + 1) rest
        match skip r with
        | ':' :: r => do
            let (v, r) ← value n (skip r)
            match skip r with
            | ',' :: r => do
                let (fs, r) ← members n (skip r)
                pure ((k, v) :: fs, r)
            | '}' :: r => pure ([(k, v)], r)
            | _ => none
        | _ => none
      else none

end

/-- `json.loads`; `none` where it raises `JSONDecodeError`. -/
def loads (s : Str) : Option Json :=
  (value (s.length + 1) (skip s)).bind fun (v, r) => if skip r = [] then some v else none

end Py.JsonText
