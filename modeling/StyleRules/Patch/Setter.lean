import StyleRules.Patch.Change
import StyleRules.Patch.Mode

/-!
# Setters

A setter writes a change set into an object and gives back a patch: the change set that brings the
object back.

* `Change.applies`: whether a change takes effect under a mode;
* **`ChangeSet.applyTo`**: the changed object and the patch;
* `Setter`, `Setter.apply`, `Setter.restore`.
-/

namespace StyleRules

/-- Whether a change takes effect on a key that is present or not. -/
def Change.applies (mode : Mode) (isPresent : Bool) : Change → Bool
  | .remove => isPresent
  | _ => if isPresent then mode.changes else mode.adds

/-- Writes a value under a key; the patch holds the value that was there, or a removal. -/
def Entries.setField (fields : Entries Value) (key : Text) (value : Value) :
    Entries Value × Option Change :=
  (fields.insert key value,
    match fields.get? key with
    | some prior => some (.set prior)
    | none => some .remove)

/-- Removes a key; the patch holds the value that was there. -/
def Entries.removeField (fields : Entries Value) (key : Text) : Entries Value × Option Change :=
  match fields.get? key with
  | some prior => (fields.erase key, some (.set prior))
  | none => (fields, none)

mutual

/-- The object after one change that takes effect, and what the patch has under the key. -/
def Change.applyTo (mode : Mode) (key : Text) (fields : Entries Value) :
    Change → Entries Value × Option Change
  | .set value => fields.setField key value
  | .nested changes =>
    match fields.get? key with
    | some (.object inner) =>
      let (inner, patch) := ChangeSet.applyTo mode inner changes
      (fields.insert key (.object inner), if patch.isEmpty then none else some (.nested patch))
    | _ => fields.setField key (.object (ChangeSet.toFields changes))
  | .remove => fields.removeField key

/-- **The object after the changes that the mode admits, and the patch that undoes them.** -/
def ChangeSet.applyTo (mode : Mode) (fields : Entries Value) :
    List (Text × Change) → Entries Value × List (Text × Change)
  | [] => (fields, [])
  | (key, change) :: rest =>
    if change.applies mode (fields.contains key) then
      let (changed, undo) := change.applyTo mode key fields
      let (final, patch) := ChangeSet.applyTo mode changed rest
      (final, match undo with
        | some inverse => (key, inverse) :: patch
        | none => patch)
    else ChangeSet.applyTo mode fields rest

end

/-- A non-empty change set with the mode in which it is applied. -/
structure Setter where
  changes : ChangeSet
  mode : Mode
  nonempty : changes.isEmpty = false

namespace Setter

/-- The setter of a change set, which must not be empty. -/
def ofChanges (changes : ChangeSet) (mode : Mode) : Except Error Setter :=
  if h : changes.isEmpty = false then .ok ⟨changes, mode, h⟩ else .error .noProperties

/-- The setter that merges a non-empty object. -/
def ofValue (value : Value) (mode : Mode) : Except Error Setter :=
  (ChangeSet.ofValue value).bind fun changes => ofChanges changes mode

/-- The setter that merges a non-empty object in the mode with the given name. -/
def ofNamedMode (value : Value) (modeName : Text) : Except Error Setter :=
  (Mode.ofName modeName).bind (ofValue value)

/-- **The target after the changes, and the patch**; the target must be an object. -/
def apply (s : Setter) (target : Value) : Except Error (Value × ChangeSet) :=
  match target with
  | .object fields =>
    let (changed, patch) := ChangeSet.applyTo s.mode fields s.changes
    .ok (.object changed, patch)
  | _ => .error .targetNotObject

/-- **The target after a patch, and the patch that undoes the restoration.** An empty patch leaves
any target as it is. -/
def restore (patch : ChangeSet) (target : Value) : Except Error (Value × ChangeSet) :=
  if h : patch.isEmpty = false then apply ⟨patch, .both, h⟩ target else .ok (target, [])

theorem apply_object (s : Setter) (fields : Entries Value) :
    s.apply (.object fields) =
      .ok (.object (ChangeSet.applyTo s.mode fields s.changes).1,
        (ChangeSet.applyTo s.mode fields s.changes).2) := rfl

end Setter

end StyleRules
