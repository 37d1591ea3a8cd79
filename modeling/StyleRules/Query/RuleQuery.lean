import StyleRules.Query.Shape
import StyleRules.Rule.Json
import StyleRules.Source.Parse

/-!
# Queries for rules

* `StoredRule`: a rule as a target: its text, and its style if it has one;
* `RuleQuery`: what to look for in the text and in the style of a rule;
* `splitBlock?`: the text before the only block of a query, and the text in the block;
* **`RuleQuery.parse`**: the query of a text such as `.a { width: 1px; }`;
* `RuleQuery.toShape`: the query laid out as a target is.
-/

namespace StyleRules

/-- The field of a target that holds the text of a rule. -/
def textKey : Text := "text".toList

/-- The field of a target that holds the style of a rule. -/
def styleKey : Text := "style".toList

/-- A rule that a style sheet holds. -/
structure StoredRule where
  text : Text
  style : Option RuleTree := none

/-- The rule as a target: an object with its text and its style. -/
def StoredRule.toValue (r : StoredRule) : Value :=
  .object ((textKey, .string r.text) ::
    match r.style with
    | some style => [(styleKey, style.toValue)]
    | none => [])

/-- What to look for in the text of a rule. -/
inductive TextMatcher where
  /-- A text, found as words if the switches say so. -/
  | text (t : Text)
  | pattern (p : Pattern)

/-- The shape that the text of a rule must fit. -/
def TextMatcher.toShape : TextMatcher → Shape
  | text t => .literal (.string t)
  | pattern p => .pattern p

/-- What to look for in a rule. -/
structure RuleQuery where
  text : Option TextMatcher := none
  style : Option RuleTree := none

/-- Whether `c` is no brace. -/
def isNoBrace (c : Char) : Bool := c != '{' && c != '}'

/-- The text before the block and the text in it, if the braces of `t` are those of one non-empty
block. -/
def splitBlock? (t : Text) : Option (Text × Text) :=
  match t.dropWhile isNoBrace with
  | '{' :: rest =>
    let inner := rest.takeWhile isNoBrace
    match rest.dropWhile isNoBrace with
    | '}' :: after =>
      if !inner.isEmpty && after.all isNoBrace then some (t.takeWhile isNoBrace, inner) else none
    | _ => none
  | _ => none

namespace RuleQuery

/-- The query for the trimmed text, if it is not empty, and for a style. -/
def ofParts (text : Text) (style : Option RuleTree) : RuleQuery :=
  let trimmed := text.trim
  ⟨if trimmed.isEmpty then none else some (.text trimmed), style⟩

/-- **The query of a text.** A single block is read as a style, and the text before it is looked
for in the text of a rule; without such a block the whole text is. The empty text is no query. -/
def parse (t : Text) : Except Error (Option RuleQuery) :=
  if t.isEmpty then .ok none
  else match splitBlock? t with
    | some (before, inner) => (StyleRules.parse inner).map fun style => some (ofParts before style)
    | none => .ok (some (ofParts t none))

/-- The query for a match in the text of a rule. -/
def ofPattern (p : Pattern) : RuleQuery := { text := some (.pattern p) }

/-- Whether the query asks for nothing. -/
def isEmpty (q : RuleQuery) : Bool := q.text.isNone && q.style.isNone

/-- The query laid out as a rule is as a target. -/
def toShape (q : RuleQuery) : Shape :=
  .object ((q.text.map fun text => (textKey, text.toShape)).toList ++
    (q.style.map fun style => (styleKey, Shape.ofTree style)).toList)

end RuleQuery

end StyleRules
