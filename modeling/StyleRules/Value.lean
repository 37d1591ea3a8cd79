import StyleRules.Entries
import StyleRules.Number.Basic

/-!
# JSON values

* `Value`: null, booleans, numbers, strings, arrays and objects with ordered fields;
* **`Value.eqv`**: equality up to the order of fields, at every level.
-/

namespace StyleRules

/-- A JSON value. The fields of an object are ordered. -/
inductive Value where
  | null
  | bool (b : Bool)
  | number (n : Number)
  | string (s : Text)
  | array (items : List Value)
  | object (fields : List (Text × Value))

namespace Value

/-- The fields of an object. -/
def object? : Value → Option (Entries Value)
  | object fields => some fields
  | _ => none

/-- Whether the value is null. -/
def isNull : Value → Bool
  | null => true
  | _ => false

/-- Whether the value is an object. -/
def isObject (v : Value) : Bool := v.object?.isSome

/-- The field of an object with the given key. -/
def field? (v : Value) (key : Text) : Option Value := v.object?.bind fun fields => fields.get? key

mutual

/-- Equality up to the order of fields, at every level. -/
def eqv : Value → Value → Bool
  | null, null => true
  | bool a, bool b => a == b
  | number a, number b => a.eqv b
  | string a, string b => a == b
  | array a, array b => eqvItems a b
  | object a, object b => a.length == b.length && eachFieldIn a b
  | _, _ => false

/-- Equality of arrays, item by item. -/
def eqvItems : List Value → List Value → Bool
  | [], [] => true
  | v :: a, w :: b => eqv v w && eqvItems a b
  | _, _ => false

/-- Whether every field of the first object has an equal one under its key in the second. -/
def eachFieldIn : List (Text × Value) → List (Text × Value) → Bool
  | [], _ => true
  | (k, v) :: rest, b =>
    (match Entries.get? b k with
      | some w => eqv v w
      | none => false) && eachFieldIn rest b

end

end Value

end StyleRules
