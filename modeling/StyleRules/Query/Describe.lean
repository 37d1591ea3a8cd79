import StyleRules.Query.Filter

/-!
# Descriptions of specifications and filters

One-line texts that show how a specification or a filter is built up.

* `describeText`: a quoted text; `describedNumbers`: the style of numbers;
* `Value.describe`, `Shape.describe`, `Switches.describe`;
* **`Spec.describe`**, **`Filter.describe`**.
-/

namespace StyleRules

/-- The digits of a number in base sixteen. -/
def hexText (n : Nat) : Text := Nat.toDigits 16 n

/-- How a character is written between quotes: quotes, backslashes and control characters are
escaped. Only ASCII is described. -/
def describeChar (c : Char) : Text :=
  match c with
  | '"' => ['\\', '"']
  | '\\' => ['\\', '\\']
  | '\n' => ['\\', 'n']
  | '\r' => ['\\', 'r']
  | '\t' => ['\\', 't']
  | _ =>
    if c.toNat = 0 then ['\\', '0']
    else if c.toNat < 32 || c.toNat = 127 then ['\\', 'u', '{'] ++ hexText c.toNat ++ ['}']
    else [c]

/-- A text between quotes. -/
def describeText (t : Text) : Text := '"' :: t.flatMap describeChar ++ ['"']

/-- A name with what stands in its parentheses. -/
def tagged (name : String) (inner : Text) : Text := name.toList ++ '(' :: inner ++ [')']

/-- Pieces separated by commas. -/
def commaSeparated (pieces : List Text) : Text := Text.join [',', ' '] pieces

/-- A boolean. -/
def describeBool (b : Bool) : Text := if b then "true".toList else "false".toList

/-- Numbers in descriptions: ties go to even digits, a point is enough from `1e-5` on, and an
exponent has its sign. -/
def describedNumbers : DecimalStyle := ⟨true, -5, true⟩

mutual

/-- The description of a value. -/
def Value.describe : Value → Text
  | .null => "Null".toList
  | .bool b => tagged "Bool" (describeBool b)
  | .number n => tagged "Number" (n.styled describedNumbers)
  | .string s => tagged "String" (describeText s)
  | .array items => "Array [".toList ++ commaSeparated (Value.describeItems items) ++ [']']
  | .object fields =>
    "Object ".toList ++ '{' :: commaSeparated (Value.describeFields fields) ++ ['}']

/-- The descriptions of items. -/
def Value.describeItems : List Value → List Text
  | [] => []
  | v :: rest => v.describe :: Value.describeItems rest

/-- The descriptions of fields. -/
def Value.describeFields : List (Text × Value) → List Text
  | [] => []
  | (k, v) :: rest => (describeText k ++ ':' :: ' ' :: v.describe) :: Value.describeFields rest

end

/-- The description of a pattern. -/
def Pattern.describe (p : Pattern) : Text := tagged "Regex" (describeText p.source)

mutual

/-- The description of a shape. -/
def Shape.describe : Shape → Text
  | .undefined => "Undefined".toList
  | .null => "Null".toList
  | .pattern p => tagged "Pattern" p.describe
  | .literal value => tagged "Literal" value.describe
  | .object entries =>
    tagged "Object" ('{' :: commaSeparated (Shape.describeEntries entries) ++ ['}'])

/-- The descriptions of entries. -/
def Shape.describeEntries : List (Text × Shape) → List Text
  | [] => []
  | (k, s) :: rest => (describeText k ++ ':' :: ' ' :: s.describe) :: Shape.describeEntries rest

end

/-- The description of a setting of the switches. -/
def Switches.describe (s : Switches) : Text :=
  "FilterConfig ".toList ++ '{' :: ' ' :: commaSeparated
    ["string_to_regex: ".toList ++ describeBool s.stringToRegex,
      "result_if_no_target: ".toList ++ describeBool s.resultIfNoTarget,
      "ignore_null: ".toList ++ describeBool s.ignoreNull,
      "ignore_undefined: ".toList ++ describeBool s.ignoreUndefined] ++ [' ', '}']

/-- **The description of a specification.** -/
def Spec.describe : Spec → Text
  | .text t => tagged "Text" (describeText t)
  | .pattern p => tagged "Pattern" p.describe
  | .shape s => tagged "Predicate" s.describe
  | .predicate _ => "Function(..)".toList

/-- **The description of a filter.** -/
def Filter.describe : Filter → Text
  | .shape s switches =>
    "Filter ".toList ++ '{' :: " query: ".toList ++ s.describe ++ ", config: ".toList ++
      switches.describe ++ [' ', '}']
  | .predicate _ => "Filter(function)".toList

end StyleRules
