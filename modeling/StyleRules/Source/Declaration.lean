import StyleRules.Selector.Pseudo

/-!
# Declarations

* `Declaration`: a property name and its value;
* **`Declaration.find?`**: the first declaration in a text;
* `opensProperties`: whether a block header opens a property block;
* `isAtRule`: whether a token is an at-rule.
-/

namespace StyleRules.Source

open Selector (isNameChar)

/-- A property name and its value, which may be empty. -/
structure Declaration where
  key : Text
  value : Text
  deriving DecidableEq, Repr

/-- The value that follows a colon: without leading blanks, and up to the next colon. -/
def valueAfterColon (t : Text) : Text := t.trimLeft.takeWhile (· ≠ ':')

/-- The declaration that starts with the first character of a text: a name, blanks, a colon and
the value. -/
def Declaration.atStart? (t : Text) : Option Declaration :=
  let key := t.takeWhile isNameChar
  match key, Text.trimLeft (t.dropWhile isNameChar) with
  | _ :: _, ':' :: rest => some ⟨key, valueAfterColon rest⟩
  | _, _ => none

/-- **The first declaration in a text.** -/
def Declaration.find? : Text → Option Declaration
  | [] => none
  | c :: t => (Declaration.atStart? (c :: t)).or (Declaration.find? t)

/-- Whether a colon that stands after a name opens a property block: nothing or a blank follows. -/
def isOpenColon : Text → Bool
  | [':'] => true
  | ':' :: c :: _ => Text.isBlank c
  | _ => false

/-- Whether a block header opens a property block: some letter, digit or `_` is followed by a
colon, and that by a blank or the end. -/
def opensProperties : Text → Bool
  | [] => false
  | c :: t => (c.isAlphanum || c == '_') && isOpenColon t || opensProperties t

/-- Whether a token is an at-rule. -/
def isAtRule (t : Text) : Bool := t.head? == some '@'

end StyleRules.Source
