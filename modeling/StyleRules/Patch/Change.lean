import StyleRules.Error
import StyleRules.Value

/-!
# Changes of an object

* `Change`: a value to write, changes inside an object, or a removal;
* `ChangeSet`: the changes of an object, by key;
* `ChangeSet.toValue`: the object that a change set writes where there was none;
* `Change.ofValue`, **`ChangeSet.ofValue`**: the changes that merge an object into another;
* `ChangeSet.eqv`: equality up to the order of keys, at every level.
-/

namespace StyleRules

/-- What is done under a key of an object. -/
inductive Change where
  | set (value : Value)
  /-- Change the object that is there, or write a new one. -/
  | nested (changes : List (Text × Change))
  | remove

/-- The changes of an object, by key and in order. As the inverse of applied changes it is called
a patch. -/
abbrev ChangeSet := Entries Change

/-! ## Plain values -/

mutual

/-- The value that a change writes where there was none; a removal writes nothing. -/
def Change.toValue? : Change → Option Value
  | .set value => some value
  | .nested changes => some (.object (ChangeSet.toFields changes))
  | .remove => none

/-- The fields that changes write where there were none. -/
def ChangeSet.toFields : List (Text × Change) → List (Text × Value)
  | [] => []
  | (k, c) :: rest =>
    match c.toValue? with
    | some value => (k, value) :: ChangeSet.toFields rest
    | none => ChangeSet.toFields rest

end

/-- The object that a change set writes where there was none. -/
def ChangeSet.toValue (changes : ChangeSet) : Value := .object (ChangeSet.toFields changes)

mutual

/-- The change that brings a value in: a non-empty object is merged, anything else is written. -/
def Change.ofValue : Value → Change
  | .object fields =>
    if fields.isEmpty then .set (.object fields) else .nested (ChangeSet.ofFields fields)
  | value => .set value

/-- The changes that bring the fields of an object in. -/
def ChangeSet.ofFields : List (Text × Value) → List (Text × Change)
  | [] => []
  | (k, v) :: rest => (k, Change.ofValue v) :: ChangeSet.ofFields rest

end

/-- **The changes that merge a non-empty object into another.** -/
def ChangeSet.ofValue : Value → Except Error ChangeSet
  | .object fields =>
    if fields.isEmpty then .error .noProperties else .ok (ChangeSet.ofFields fields)
  | _ => .error .noProperties

/-! ## Equality up to the order of keys -/

mutual

/-- Equality of changes up to the order of keys, at every level. -/
def Change.eqv : Change → Change → Bool
  | .set a, .set b => a.eqv b
  | .nested a, .nested b => a.length == b.length && ChangeSet.eachIn a b
  | .remove, .remove => true
  | _, _ => false

/-- Whether every change of the first set has an equal one under its key in the second. -/
def ChangeSet.eachIn : List (Text × Change) → List (Text × Change) → Bool
  | [], _ => true
  | (k, c) :: rest, b =>
    (match Entries.get? b k with
      | some d => c.eqv d
      | none => false) && ChangeSet.eachIn rest b

end

/-- Equality of change sets up to the order of keys, at every level. -/
def ChangeSet.eqv (a b : ChangeSet) : Bool := a.length == b.length && ChangeSet.eachIn a b

end StyleRules
