import StyleRules.Query.RuleQuery

/-!
# Filters

* `Spec`: what a filter can be made of;
* `Spec.query`: the rule query of a specification, if it is one;
* **`Filter.compile`**: the filter of a specification under given switches;
* **`Filter.accepts`**, `Filter.select`: the targets that pass.
-/

namespace StyleRules

/-- What a filter can be made of. -/
inductive Spec where
  | text (t : Text)
  | pattern (p : Pattern)
  /-- A shape, which must be an object. -/
  | shape (s : Shape)
  | predicate (test : Value → Bool)

namespace Spec

/-- The specification that a JSON value stands for: a string is a rule query, anything else a
shape. -/
def ofValue : Value → Spec
  | .string t => .text t
  | value => .shape (Shape.ofValue value)

/-- The rule query of a specification. Shapes and predicates have none, and neither has the empty
text. -/
def query : Spec → Except Error (Option RuleQuery)
  | text t => RuleQuery.parse t
  | pattern p => .ok (some (.ofPattern p))
  | shape _ | predicate _ => .ok none

/-- The shape that targets must fit before strings are compiled. -/
def toShape : Spec → Except Error Shape
  | shape s => if s.isObject then .ok s else .error .queryNotObject
  | spec =>
    match spec.query with
    | .error e => .error e
    | .ok (some q) => if q.isEmpty then .error .emptyQuery else .ok q.toShape
    | .ok none => .error .emptyQuery

end Spec

/-- A test of targets. -/
inductive Filter where
  | shape (s : Shape) (switches : Switches)
  | predicate (test : Value → Bool)

namespace Filter

/-- **The filter of a specification under given switches.** -/
def compile (switches : Switches) : Spec → Except Error Filter
  | .predicate test => .ok (predicate test)
  | spec =>
    match spec.toShape with
    | .error e => .error e
    | .ok s => (s.compile switches).map fun compiled => shape compiled switches

/-- **Whether a target passes.** -/
def accepts : Filter → Value → Bool
  | shape s switches, target => s.accepts switches (some target)
  | predicate test, target => test target

/-- The targets that pass, in order. -/
def select (f : Filter) (targets : List Value) : List Value := targets.filter f.accepts

/-- Whether a rule passes as a target. -/
def acceptsRule (f : Filter) (r : StoredRule) : Bool := f.accepts r.toValue

/-- The compiled shape, unless the filter is a predicate. -/
def shape? : Filter → Option Shape
  | shape s _ => some s
  | predicate _ => none

end Filter

end StyleRules
