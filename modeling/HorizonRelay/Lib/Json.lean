import HorizonRelay.Lib.Double

/-!
# JSON values as Python holds them

What `json.loads` can return: `true` is not the number one, integers are unbounded and
kept apart from floats, and a float may be one of the three special values.  A finite
float is its exact rational value; a number that is read as a float is rounded first.

## Main definitions

* `PyFloat`, `Json` — the values.
* `Json.truthy`, `Json.get?`, `Json.hasKeys` — what code does to them before it knows
  their shape.
* `Json.hashKey` — what a scalar counts as in a set or a dictionary.
* `StdLib`, `StdLib.RatioLaws`, `StdLib.DigitLaws` — what is taken from Python's library
  as it is.
* `Json.pyStr`, `Json.toFloat` — `str(value)` and `float(value)`.
-/

namespace Py

/-- A Python float. -/
inductive PyFloat : Type
  | fin (q : ℚ)
  | posInf
  | negInf
  | nan
  deriving DecidableEq

/-- A JSON value. -/
inductive Json : Type
  | null
  | bool (b : Bool)
  | int (n : ℤ)
  | float (x : PyFloat)
  | str (s : Str)
  | arr (items : List Json)
  | obj (fields : List (Str × Json))

/-- The key a scalar has in a set or a dictionary: equal numbers have one key, whatever
their type. -/
inductive HashKey : Type
  | none
  | num (q : ℚ)
  | special (x : PyFloat)
  | str (s : Str)
  deriving DecidableEq

namespace Json

/-- `bool(value)`. -/
def truthy : Json → Bool
  | null => false
  | bool b => b
  | int n => n != 0
  | float (.fin q) => q != 0
  | float _ => true
  | str s => !s.isEmpty
  | arr items => !items.isEmpty
  | obj fields => !fields.isEmpty

/-- The text of a string value. -/
def str? : Json → Option Str
  | str s => some s
  | _ => none

/-- The items of a list value. -/
def arr? : Json → Option (List Json)
  | arr items => some items
  | _ => none

/-- The fields of an object. -/
def obj? : Json → Option (List (Str × Json))
  | obj fields => some fields
  | _ => none

/-- `isinstance(value, dict)`. -/
def isObj (v : Json) : Bool := v.obj?.isSome

/-- `value.get(key)` of an object. -/
def get? (v : Json) (key : Str) : Option Json := v.obj?.bind (·.lookup key)

/-- `set(fields) == keys`. -/
def hasKeys (fields : List (Str × Json)) (keys : List Str) : Bool :=
  fields.all (fun f => keys.contains f.1) && keys.all fun k => (fields.lookup k).isSome

/-- The key of a value in a set; `none` for a list or an object, which Python refuses to
hash. -/
def hashKey : Json → Option HashKey
  | null => some .none
  | bool b => some (.num (if b then 1 else 0))
  | int n => some (.num n)
  | float (.fin q) => some (.num q)
  | float x => some (.special x)
  | str s => some (.str s)
  | arr _ | obj _ => none

/-- The strings of a list whose items are all strings. -/
def strs? (items : List Json) : Option (List Str) := items.mapM str?

@[simp] theorem str?_str (s : Str) : (str s).str? = some s := rfl

theorem str?_eq_some {v : Json} {s : Str} : v.str? = some s ↔ v = str s := by
  cases v <;> simp [str?]

theorem arr?_eq_some {v : Json} {items : List Json} : v.arr? = some items ↔ v = arr items := by
  cases v <;> simp [arr?]

theorem obj?_eq_some {v : Json} {fields : List (Str × Json)} :
    v.obj? = some fields ↔ v = obj fields := by
  cases v <;> simp [obj?]

/-- The value is an object with exactly these keys. -/
def HasFields (v : Json) (keys : List Str) : Prop :=
  ∃ fields, v = .obj fields ∧ ∀ k, k ∈ fields.map Prod.fst ↔ k ∈ keys

theorem hasKeys_iff {fields : List (Str × Json)} {keys : List Str} :
    hasKeys fields keys = true ↔ ∀ k, k ∈ fields.map Prod.fst ↔ k ∈ keys := by
  have hlookup : ∀ k : Str, (fields.lookup k).isSome = true ↔ k ∈ fields.map Prod.fst := by
    intro k
    rw [List.lookup_isSome_iff, List.mem_map]
    exact exists_congr fun f => and_congr_right fun _ => beq_iff_eq.trans eq_comm
  simp only [hasKeys, Bool.and_eq_true, List.all_eq_true, List.contains_iff_mem, hlookup]
  constructor
  · rintro ⟨hsub, hsup⟩ k
    refine ⟨fun hk => ?_, hsup k⟩
    obtain ⟨f, hf, rfl⟩ := List.mem_map.mp hk
    exact hsub f hf
  · intro h
    exact ⟨fun f hf => (h f.1).mp (List.mem_map_of_mem hf), fun k hk => (h k).mpr hk⟩

theorem strs?_eq_some {items : List Json} {ss : List Str} :
    strs? items = some ss ↔ items = ss.map str := by
  unfold strs?
  induction items generalizing ss with
  | nil => cases ss <;> simp
  | cons v items ih =>
      rw [List.mapM_cons]
      cases ss with
      | nil =>
          simp only [Option.pure_def, Option.bind_eq_bind, Option.bind_eq_some_iff,
            Option.some.injEq, reduceCtorEq, and_false, exists_false, List.map_nil]
      | cons s ss =>
          simp only [Option.pure_def, Option.bind_eq_bind, Option.bind_eq_some_iff,
            str?_eq_some, Option.some.injEq, List.cons.injEq, List.map_cons]
          constructor
          · rintro ⟨s', rfl, ss', hss, rfl, rfl⟩
            exact ⟨rfl, ih.mp hss⟩
          · rintro ⟨rfl, hss⟩
            exact ⟨s, rfl, ss, ih.mpr hss, rfl, rfl⟩

end Json

/-- The parts of Python's standard library that are used and not computed here. -/
structure StdLib : Type where
  /-- `str.lower`. -/
  lower : Str → Str
  /-- The decimal digit a character is; the characters `\d` matches have one. -/
  decimal : Char → Option ℕ
  /-- `difflib.SequenceMatcher(None, a, b).ratio()`. -/
  ratio : Str → Str → ℚ
  /-- `math.exp`. It is asked of log-probabilities, which are too small to overflow. -/
  exp : ℚ → ℚ
  /-- `repr` of a float. -/
  floatRepr : PyFloat → Str
  /-- `repr` of a string. -/
  strRepr : Str → Str

namespace StdLib

/-- Whether `\d` matches. -/
def isDecimal (lib : StdLib) (c : Char) : Bool := (lib.decimal c).isSome

/-- `ratio()` lies between zero and one, and equal texts have ratio one. -/
structure RatioLaws (lib : StdLib) : Prop where
  nonneg : ∀ a b, 0 ≤ lib.ratio a b
  le_one : ∀ a b, lib.ratio a b ≤ 1
  self : ∀ a, lib.ratio a a = 1

/-- The ASCII characters `\d` matches are the digits, each with its value. -/
structure DigitLaws (lib : StdLib) : Prop where
  ascii : ∀ c : Char, c.toNat < 128 →
    lib.decimal c = if '0' ≤ c ∧ c ≤ '9' then some (c.toNat - 48) else none

/-- A character that can stand in a number. -/
def isNumeric (lib : StdLib) (c : Char) : Bool :=
  lib.isDecimal c || c = '-' || c = '.' || c = ','

/-- Only equal texts have ratio one, white space is no digit, and `lower` replaces characters
that cannot stand in a number by others that cannot. -/
structure TextLaws (lib : StdLib) : Prop where
  strict : ∀ a b, lib.ratio a b = 1 → a = b
  space : ∀ c, isSpace c = true → lib.isDecimal c = false
  lower : ∀ s, ∃ ps : List Str, lib.lower s = ps.flatten ∧
    List.Forall₂ (fun c p => p = [c] ∨
      lib.isNumeric c = false ∧ p ≠ [] ∧ ∀ d ∈ p, lib.isNumeric d = false) s ps

end StdLib

namespace Json

variable (lib : StdLib)

mutual

/-- `repr(value)`. -/
def pyRepr : Json → Str
  | null => "None".toList
  | bool b => if b then "True".toList else "False".toList
  | int n => Str.ofInt n
  | float x => lib.floatRepr x
  | str s => lib.strRepr s
  | arr items => '[' :: Str.join ", ".toList (reprItems items) ++ [']']
  | obj fields => '{' :: Str.join ", ".toList (reprFields fields) ++ ['}']

def reprItems : List Json → List Str
  | [] => []
  | v :: vs => pyRepr v :: reprItems vs

def reprFields : List (Str × Json) → List Str
  | [] => []
  | (k, v) :: fs => (lib.strRepr k ++ ": ".toList ++ pyRepr v) :: reprFields fs

end

/-- `str(value)`. -/
def pyStr : Json → Str
  | str s => s
  | v => pyRepr lib v

/-- The digits at the front of a text, as `float` reads them: single underscores between
digits are skipped. Gives their value, how many there are and what follows. -/
def digitPart : Str → ℕ → ℕ → ℕ × ℕ × Str
  | [], v, n => (v, n, [])
  | c :: rest, v, n =>
      match lib.decimal c with
      | some d => digitPart rest (10 * v + d) (n + 1)
      | none =>
          if c = '_' ∧ 0 < n ∧ rest.head?.any lib.isDecimal then digitPart rest v n
          else (v, n, c :: rest)

/-- A number as a float: the nearest double, or an infinity where it is too large for one. -/
def roundFloat (q : ℚ) : PyFloat :=
  if (floatBound : ℚ) ≤ q then .posInf
  else if q ≤ -(floatBound : ℚ) then .negInf
  else .fin (roundDouble q)

theorem roundFloat_of_isDouble {q : ℚ} (h : IsDouble q) : roundFloat q = .fin q := by
  obtain ⟨hlow, hhigh⟩ := abs_lt.mp h.abs_lt_bound
  rw [roundFloat, if_neg (not_le.mpr hhigh), if_neg (not_le.mpr hlow), h.roundDouble_eq]

theorem isDouble_of_roundFloat {q r : ℚ} (h : roundFloat q = .fin r) : IsDouble r := by
  unfold roundFloat at h
  split at h
  · cases h
  · split at h
    · cases h
    · rename_i hhigh hlow
      cases h
      exact isDouble_roundDouble (abs_lt.mpr ⟨not_le.mp hlow, not_le.mp hhigh⟩)

/-- An exponent mark and its digits. -/
def exponent : Str → Option ℤ
  | [] => some 0
  | c :: rest =>
      if c = 'e' ∨ c = 'E' then
        let (sign, rest) := match rest with
          | '-' :: rest => ((-1 : ℤ), rest)
          | '+' :: rest => (1, rest)
          | rest => (1, rest)
        match digitPart lib rest 0 0 with
        | (v, n, []) => if 0 < n then some (sign * v) else none
        | _ => none
      else none

/-- An unsigned decimal number: digits, a fraction and an exponent. -/
def decimalNumber (s : Str) : Option ℚ :=
  let (whole, n, rest) := digitPart lib s 0 0
  let (mantissa, digits, scale, rest) := match rest with
    | '.' :: rest =>
        let (v, m, rest) := digitPart lib rest 0 0
        (whole * 10 ^ m + v, n + m, m, rest)
    | rest => (whole, n, 0, rest)
  if digits = 0 then none
  else (exponent lib rest).map fun e => (mantissa : ℚ) / 10 ^ scale * 10 ^ e

/-- White space to `float`, which does not know the separators `U+001C` to `U+001F`. -/
def isFloatSpace (c : Char) : Bool := isSpace c && !(0x1c ≤ c.toNat && c.toNat ≤ 0x1f)

/-- A text without the white space `float` takes off its ends. -/
def trim (s : Str) : Str :=
  ((s.dropWhile isFloatSpace).reverse.dropWhile isFloatSpace).reverse

/-- `float(text)`; `none` where Python raises `ValueError`. -/
def floatOfStr (s : Str) : Option PyFloat :=
  let (neg, body) := match trim s with
    | '-' :: rest => (true, rest)
    | '+' :: rest => (false, rest)
    | rest => (false, rest)
  let word := body.map Char.toLower
  if word = "inf".toList ∨ word = "infinity".toList then
    some (if neg then .negInf else .posInf)
  else if word = "nan".toList then some .nan
  else (decimalNumber lib body).map fun q => roundFloat (if neg then -q else q)

/-- How `float(value)` can fail. -/
inductive FloatError : Type
  | typeError
  | valueError
  | overflowError
  deriving DecidableEq

/-- `float(value)`. -/
def toFloat : Json → Except FloatError PyFloat
  | bool b => .ok (.fin (if b then 1 else 0))
  | int n =>
      if floatBound ≤ n.natAbs then .error .overflowError else .ok (.fin (roundDouble n))
  | float x => .ok x
  | str s => match floatOfStr lib s with
      | some x => .ok x
      | none => .error .valueError
  | null | arr _ | obj _ => .error .typeError

/-- An integer `float` refuses: it is too large for one. -/
def TooLarge : Json → Prop
  | int n => floatBound ≤ n.natAbs
  | _ => False

theorem toFloat_eq_overflowError {v : Json} :
    toFloat lib v = .error .overflowError ↔ v.TooLarge := by
  cases v with
  | int n =>
      by_cases h : floatBound ≤ n.natAbs
      · simp only [toFloat, TooLarge, h, if_true]
      · simp only [toFloat, TooLarge, h, if_false, reduceCtorEq]
  | str s =>
      simp only [toFloat, TooLarge, iff_false]
      cases floatOfStr lib s with
      | some x => simp
      | none => simp
  | _ => simp [toFloat, TooLarge]

end Json

end Py
