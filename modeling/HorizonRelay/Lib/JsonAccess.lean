import HorizonRelay.Lib.Fallible
import HorizonRelay.Lib.Json

/-!
# Going into JSON values

Python's way into a value before its shape is known: `get`, an index, a loop.  Each fails
with an error of its own when the value has no such part.

## Main definitions

* `PyError` — the errors.
* `Json.getField`, `Json.item`, `Json.first`, `Json.iter`, `Json.asFloat` — the operations.
* `Json.field`, `Json.items` — what they find, where nothing is found for want of a part.
* `Json.ObjOrFalsy`, `Json.IterOrFalsy` — the shapes `value or {}` and `value or []` allow.
-/

namespace Py

/-- The errors of Python's own operations. -/
inductive PyError : Type
  | attributeError
  | keyError
  | indexError
  | typeError
  | valueError
  | overflowError
  | recursionError
  deriving DecidableEq

/-- The name of the error's class. -/
def PyError.name : PyError → Str
  | .attributeError => "AttributeError".toList
  | .keyError => "KeyError".toList
  | .indexError => "IndexError".toList
  | .typeError => "TypeError".toList
  | .valueError => "ValueError".toList
  | .overflowError => "OverflowError".toList
  | .recursionError => "RecursionError".toList

namespace Json

/-- `value or other`. -/
def orElse (v other : Json) : Json := if v.truthy then v else other

/-- `value.get(key)`. -/
def getField (v : Json) (key : Str) : Except PyError Json :=
  match v with
  | obj fields => .ok ((fields.lookup key).getD null)
  | _ => .error .attributeError

/-- `value[key]` for a text. -/
def item (v : Json) (key : Str) : Except PyError Json :=
  match v with
  | obj fields =>
      match fields.lookup key with
      | some w => .ok w
      | none => .error .keyError
  | _ => .error .typeError

/-- `value[0]`. -/
def first : Json → Except PyError Json
  | arr (v :: _) => .ok v
  | str (c :: _) => .ok (str [c])
  | arr [] | str [] => .error .indexError
  | obj _ => .error .keyError
  | _ => .error .typeError

/-- What `for item in value` goes through: an object gives its keys, a text its characters. -/
def iter : Json → Except PyError (List Json)
  | arr vs => .ok vs
  | str s => .ok (s.map fun c => str [c])
  | obj fields => .ok (fields.map fun f => str f.1)
  | _ => .error .typeError

/-- `float(value)`. -/
def asFloat (lib : StdLib) (v : Json) : Except PyError PyFloat :=
  match toFloat lib v with
  | .ok x => .ok x
  | .error .typeError => .error .typeError
  | .error .valueError => .error .valueError
  | .error .overflowError => .error .overflowError

/-! ## What is found -/

/-- What an object holds under a key; null where there is none. -/
def field (v : Json) (key : Str) : Json := (v.get? key).getD null

/-- What a loop over a value goes through; nothing where there is no such loop. -/
def items : Json → List Json
  | arr vs => vs
  | str s => s.map fun c => str [c]
  | obj fields => fields.map fun f => str f.1
  | _ => []

/-- A loop can go through the value. -/
def isIterable : Json → Bool
  | arr _ | str _ | obj _ => true
  | _ => false

/-- The shape of `value or {}` when it is to be an object. -/
def ObjOrFalsy (v : Json) : Prop := v.truthy = true → v.isObj = true

/-- The shape of `value or []` when it is to be gone through. -/
def IterOrFalsy (v : Json) : Prop := v.truthy = true → v.isIterable = true

theorem getField_eq_ok {v w : Json} {key : Str} :
    v.getField key = .ok w ↔ v.isObj = true ∧ v.field key = w := by
  cases v <;> simp [getField, field, get?, isObj, obj?]

theorem getField_eq_error {v : Json} {key : Str} {e : PyError} :
    v.getField key = .error e ↔ ¬ v.isObj = true ∧ e = .attributeError := by
  cases v <;> simp [getField, isObj, obj?, eq_comm]

theorem item_eq_ok {v w : Json} {key : Str} : v.item key = .ok w ↔ v.get? key = some w := by
  cases v with
  | obj fields =>
      change (match fields.lookup key with
        | some w => Except.ok w
        | none => .error PyError.keyError) = .ok w ↔ fields.lookup key = some w
      cases fields.lookup key with
      | none => simp
      | some u => simp
  | _ => simp [item, get?, obj?]

/-- `value[key]` fails with one of two errors. -/
theorem item_eq_error {v : Json} {key : Str} {e : PyError} (h : v.item key = .error e) :
    e = .keyError ∨ e = .typeError := by
  cases v with
  | obj fields =>
      change (match fields.lookup key with
        | some w => Except.ok w
        | none => .error PyError.keyError) = .error e at h
      cases hf : fields.lookup key with
      | none =>
          rw [hf] at h
          cases h
          exact .inl rfl
      | some u =>
          rw [hf] at h
          cases h
  | _ =>
      cases h
      exact .inr rfl

theorem first_error {v : Json} {e : PyError} (h : v.first = .error e) :
    e = .indexError ∨ e = .keyError ∨ e = .typeError := by
  cases v with
  | arr vs =>
      cases vs with
      | nil =>
          cases h
          exact .inl rfl
      | cons v vs => cases h
  | str s =>
      cases s with
      | nil =>
          cases h
          exact .inl rfl
      | cons c cs => cases h
  | obj fields =>
      cases h
      exact .inr (.inl rfl)
  | _ =>
      cases h
      exact .inr (.inr rfl)

theorem asFloat_eq_ok {lib : StdLib} {v : Json} {x : PyFloat} :
    v.asFloat lib = .ok x ↔ v.toFloat lib = .ok x := by
  unfold asFloat
  rcases v.toFloat lib with (_ | _ | _) | y <;> simp

theorem asFloat_eq_overflowError {lib : StdLib} {v : Json} :
    v.asFloat lib = .error .overflowError ↔ v.TooLarge := by
  rw [← toFloat_eq_overflowError lib]
  unfold asFloat
  rcases v.toFloat lib with (_ | _ | _) | y <;> simp

theorem asFloat_eq_error {lib : StdLib} {v : Json} {e : PyError} (h : v.asFloat lib = .error e) :
    e = .typeError ∨ e = .valueError ∨ e = .overflowError := by
  unfold asFloat at h
  rcases hf : v.toFloat lib with (_ | _ | _) | y <;> rw [hf] at h <;> cases h <;> simp

/-- What is false to Python holds nothing. -/
theorem field_of_falsy {v : Json} (h : v.truthy = false) (key : Str) : v.field key = null := by
  cases v with
  | obj fields =>
      cases fields with
      | nil => rfl
      | cons f fs => cases h
  | _ => rfl

theorem items_of_falsy {v : Json} (h : v.truthy = false) : v.items = [] := by
  cases v with
  | arr vs =>
      cases vs with
      | nil => rfl
      | cons w ws => cases h
  | str s =>
      cases s with
      | nil => rfl
      | cons c cs => cases h
  | obj fields =>
      cases fields with
      | nil => rfl
      | cons f fs => cases h
  | _ => rfl

theorem iter_eq_ok {v : Json} {vs : List Json} :
    v.iter = .ok vs ↔ v.isIterable = true ∧ v.items = vs := by
  cases v <;> simp [iter, isIterable, items]

theorem iter_eq_error {v : Json} {e : PyError} :
    v.iter = .error e ↔ ¬ v.isIterable = true ∧ e = .typeError := by
  cases v <;> simp [iter, isIterable, eq_comm]

/-- `(value or {}).get(key)`. -/
theorem getField_orElse_eq_ok {v w : Json} {key : Str} :
    (v.orElse (obj [])).getField key = .ok w ↔ v.ObjOrFalsy ∧ v.field key = w := by
  unfold orElse ObjOrFalsy
  split
  · rename_i ht
    simp [getField_eq_ok, ht]
  · rename_i ht
    rw [Bool.not_eq_true] at ht
    simp [getField, ht, field_of_falsy ht]

theorem getField_orElse_eq_error {v : Json} {key : Str} {e : PyError} :
    (v.orElse (obj [])).getField key = .error e ↔ ¬ v.ObjOrFalsy ∧ e = .attributeError := by
  unfold orElse ObjOrFalsy
  split
  · rename_i ht
    simp [getField_eq_error, ht]
  · rename_i ht
    simp [getField, ht]

/-- A loop over `value or []`. -/
theorem iter_orElse_eq_ok {v : Json} {vs : List Json} :
    (v.orElse (arr [])).iter = .ok vs ↔ v.IterOrFalsy ∧ v.items = vs := by
  unfold orElse IterOrFalsy
  split
  · rename_i ht
    simp [iter_eq_ok, ht]
  · rename_i ht
    rw [Bool.not_eq_true] at ht
    simp [iter, ht, items_of_falsy ht]

theorem iter_orElse_eq_error {v : Json} {e : PyError} :
    (v.orElse (arr [])).iter = .error e ↔ ¬ v.IterOrFalsy ∧ e = .typeError := by
  unfold orElse IterOrFalsy
  split
  · rename_i ht
    simp [iter_eq_error, ht]
  · rename_i ht
    simp [iter, ht]

/-- Something is held only by an object. -/
theorem isObj_of_field {v : Json} (key : Str) (h : v.field key ≠ null) : v.isObj = true := by
  cases v with
  | obj fields => rfl
  | _ => exact absurd rfl h

/-- Something to go through is there only in what a loop can go through. -/
theorem of_items_ne_nil {v : Json} (h : v.items ≠ []) : v.truthy = true ∧ v.isIterable = true := by
  refine ⟨?_, ?_⟩
  · by_contra ht
    rw [Bool.not_eq_true] at ht
    exact h (items_of_falsy ht)
  · cases v with
    | arr vs => rfl
    | str s => rfl
    | obj fields => rfl
    | _ => exact absurd rfl h

end Json

end Py
