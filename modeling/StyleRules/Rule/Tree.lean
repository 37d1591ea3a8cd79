import StyleRules.Entries

/-!
# Rule trees

The flat result of reading nested style text: selectors and at-rules hold blocks, property names
hold values, and a statement such as an import holds nothing.

* `RuleValue`, `RuleTree`;
* `RuleTree.property?`, `RuleTree.node?`, `RuleTree.isFlat`;
* `RuleTree.modifyNode`: change the block under a key, starting from an empty one if there is none;
* `RuleTree.pruneEmpty`: drop the direct entries that are empty blocks;
* `RuleValue.eqv`, `RuleTree.eqv`: equality up to the order of entries, at every level.
-/

namespace StyleRules

/-- What stands under a key of a rule tree. -/
inductive RuleValue where
  | leaf (value : Text)
  /-- A block: the properties of a selector, or the body of an at-rule. -/
  | node (body : List (Text × RuleValue))
  /-- Nothing: the key is a statement of its own. -/
  | absent

/-- Flattened selectors, at-rules and property names with their values, in order of first
writing. -/
abbrev RuleTree := Entries RuleValue

namespace RuleValue

/-- Whether the value is a block. -/
def isNode : RuleValue → Bool
  | node _ => true
  | _ => false

/-- The property value, if it is one. -/
def leaf? : RuleValue → Option Text
  | leaf value => some value
  | _ => none

/-- The block, if it is one. -/
def node? : RuleValue → Option RuleTree
  | node body => some body
  | _ => none

/-- Whether the value is an empty block. -/
def isEmptyNode : RuleValue → Bool
  | node body => body.isEmpty
  | _ => false

end RuleValue

namespace RuleTree

/-- The property value directly under a key. -/
def property? (t : RuleTree) (key : Text) : Option Text := (t.get? key).bind RuleValue.leaf?

/-- The block directly under a key. -/
def node? (t : RuleTree) (key : Text) : Option RuleTree := (t.get? key).bind RuleValue.node?

/-- Whether no direct entry is a block. -/
def isFlat (t : RuleTree) : Bool := !t.any fun entry => entry.2.isNode

/-- Changes the block under `key`. A missing key is added at the end and a value that is no block
is replaced in its place; both start from an empty block. -/
def modifyNode (t : RuleTree) (key : Text) (change : RuleTree → RuleTree) : RuleTree :=
  t.insert key (.node (change ((node? t key).getD [])))

/-- Drops the direct entries that are empty blocks. Deeper levels are left alone. -/
def pruneEmpty (t : RuleTree) : RuleTree := t.filter fun entry => !entry.2.isEmptyNode

theorem not_isEmptyNode_of_mem_pruneEmpty {t : RuleTree} {entry : Text × RuleValue}
    (h : entry ∈ pruneEmpty t) : entry.2.isEmptyNode = false := by
  simpa using (List.mem_filter.1 h).2

end RuleTree

/-! ## Equality up to the order of entries -/

mutual

/-- Whether two values are equal up to the order of entries, at every level. -/
def RuleValue.eqv : RuleValue → RuleValue → Bool
  | .leaf a, .leaf b => a == b
  | .node a, .node b => a.length == b.length && RuleTree.eachIn a b
  | .absent, .absent => true
  | _, _ => false

/-- Whether every entry of the first tree has an equal one under its key in the second. -/
def RuleTree.eachIn : RuleTree → RuleTree → Bool
  | [], _ => true
  | (k, v) :: rest, b =>
    (match Entries.get? b k with
      | some w => v.eqv w
      | none => false) && RuleTree.eachIn rest b

end

/-- Whether two trees are equal up to the order of entries, at every level. -/
def RuleTree.eqv (a b : RuleTree) : Bool := a.length == b.length && RuleTree.eachIn a b

end StyleRules
