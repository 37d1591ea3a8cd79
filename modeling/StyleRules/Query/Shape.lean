import StyleRules.Pattern.Basic
import StyleRules.Query.Switches
import StyleRules.Rule.Tree

/-!
# Shapes

A shape is a structural query: it is laid beside a target and compared part by part.

* `Shape`; `Shape.ofValue`, `Shape.ofTree`: the shapes of JSON values and rule trees;
* `Shape.compile`: strings made into patterns, if the switches say so;
* **`Shape.accepts`**: whether a target fits a shape.
-/

namespace StyleRules

/-- A structural query. -/
inductive Shape where
  /-- Fits anything, or only a missing target, as the switches say. -/
  | undefined
  /-- Fits anything, or only null, as the switches say. -/
  | null
  | pattern (p : Pattern)
  | literal (value : Value)
  | object (entries : List (Text × Shape))

namespace Shape

/-- Whether the shape is an object. -/
def isObject : Shape → Bool
  | object _ => true
  | _ => false

/-! ## Shapes of values and trees -/

mutual

/-- The shape of a value: null and objects are taken apart, anything else is literal. -/
def ofValue : Value → Shape
  | .null => .null
  | .object fields => .object (ofFields fields)
  | value => .literal value

/-- The shapes of the fields of an object. -/
def ofFields : List (Text × Value) → List (Text × Shape)
  | [] => []
  | (k, v) :: rest => (k, ofValue v) :: ofFields rest

end

mutual

/-- The shape of what stands under a key of a rule tree. -/
def ofRuleValue : RuleValue → Shape
  | .leaf value => .literal (.string value)
  | .node body => .object (ofEntries body)
  | .absent => .null

/-- The shapes of the entries of a rule tree. -/
def ofEntries : List (Text × RuleValue) → List (Text × Shape)
  | [] => []
  | (k, v) :: rest => (k, ofRuleValue v) :: ofEntries rest

end

/-- The shape of a rule tree. -/
def ofTree (t : RuleTree) : Shape := .object (ofEntries t)

/-! ## Compiling -/

/-- A literal value in a query: a non-empty string becomes a pattern, if the switches say so. -/
def compileLiteral (s : Switches) (value : Value) : Except Error Shape :=
  match value with
  | .string t =>
    if s.stringToRegex && !t.isEmpty then (Pattern.ofText t).map .pattern else .ok (.literal value)
  | _ => .ok (.literal value)

mutual

/-- The shape with its literal strings compiled, inside of objects too. -/
def compile (s : Switches) : Shape → Except Error Shape
  | .literal value => compileLiteral s value
  | .object entries =>
    match compileEntries s entries with
    | .ok compiled => .ok (.object compiled)
    | .error e => .error e
  | shape => .ok shape

/-- The entries of an object shape, compiled in order. -/
def compileEntries (s : Switches) : List (Text × Shape) → Except Error (List (Text × Shape))
  | [] => .ok []
  | (k, shape) :: rest =>
    match compile s shape with
    | .error e => .error e
    | .ok compiled =>
      match compileEntries s rest with
      | .ok others => .ok ((k, compiled) :: others)
      | .error e => .error e

end

/-! ## Matching -/

/-- Whether a target is the empty object. -/
def isEmptyObject : Option Value → Bool
  | some (.object []) => true
  | _ => false

mutual

/-- **Whether a target, which may be missing, fits a shape.** The empty object shape fits only the
empty object. -/
def accepts (s : Switches) : Shape → Option Value → Bool
  | .undefined, target => s.ignoreUndefined || target.isNone
  | .null, target => s.ignoreNull || target.any Value.isNull
  | .pattern p, some (.string t) => p.isMatch t
  | .pattern _, _ => false
  | .literal value, some target => target.eqv value
  | .literal _, none => false
  | .object entries, target =>
    if entries.isEmpty then isEmptyObject target
    else acceptsEach s (target.bind Value.object?) entries

/-- Whether every entry finds a fitting field; a missing one gives what the switches say. -/
def acceptsEach (s : Switches) (fields : Option (Entries Value)) : List (Text × Shape) → Bool
  | [] => true
  | (key, shape) :: rest =>
    (match fields.bind fun found => found.get? key with
      | some found => accepts s shape (some found)
      | none => s.resultIfNoTarget) && acceptsEach s fields rest

end

end Shape

end StyleRules
