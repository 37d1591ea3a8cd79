import StyleRules.Rule.Tree
import StyleRules.Value

/-!
# Rule trees as JSON values

A property value is a string, a block an object and a statement null.

* `RuleValue.toValue`, `RuleTree.toFields`, **`RuleTree.toValue`**;
* `RuleValue.serialize`, `RuleTree.serializeOnto`, **`RuleTree.serialize`**: the same form, written
  field by field;
* `RuleValue.ofValue?`, `RuleTree.ofFields?`, **`RuleTree.ofValue?`**.
-/

namespace StyleRules

mutual

/-- The JSON form of what stands under a key. -/
def RuleValue.toValue : RuleValue → Value
  | .leaf value => .string value
  | .node body => .object (RuleTree.toFields body)
  | .absent => .null

/-- The JSON forms of the entries of a tree, in order. -/
def RuleTree.toFields : List (Text × RuleValue) → List (Text × Value)
  | [] => []
  | (k, v) :: rest => (k, v.toValue) :: RuleTree.toFields rest

end

/-- The JSON form of a tree: an object with the same keys in the same order. -/
def RuleTree.toValue (t : RuleTree) : Value := .object (RuleTree.toFields t)

mutual

/-- What is written for a value under a key: its content alone, without a mark of its kind. -/
def RuleValue.serialize : RuleValue → Value
  | .leaf value => .string value
  | .node body => .object (RuleTree.serializeOnto [] body)
  | .absent => .null

/-- The fields of an object into which entries are written one after the other. -/
def RuleTree.serializeOnto (written : Entries Value) : List (Text × RuleValue) → Entries Value
  | [] => written
  | (k, v) :: rest => RuleTree.serializeOnto (written.insert k v.serialize) rest

end

/-- The JSON value that is written for a tree, starting from the empty object. -/
def RuleTree.serialize (t : RuleTree) : Value := .object (RuleTree.serializeOnto [] t)

mutual

/-- What a JSON value stands for under a key; only strings, null and objects of such have a
meaning. -/
def RuleValue.ofValue? : Value → Option RuleValue
  | .string s => some (.leaf s)
  | .object fields =>
    match RuleTree.ofFields? fields with
    | some body => some (.node body)
    | none => none
  | .null => some .absent
  | _ => none

/-- The entries that the fields of an object stand for. -/
def RuleTree.ofFields? : List (Text × Value) → Option (List (Text × RuleValue))
  | [] => some []
  | (k, v) :: rest =>
    match RuleValue.ofValue? v, RuleTree.ofFields? rest with
    | some w, some entries => some ((k, w) :: entries)
    | _, _ => none

end

/-- The tree that a JSON value stands for: an object of strings, nulls and such objects. -/
def RuleTree.ofValue? : Value → Option RuleTree
  | .object fields => RuleTree.ofFields? fields
  | _ => none

end StyleRules
