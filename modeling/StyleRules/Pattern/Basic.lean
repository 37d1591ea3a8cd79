import StyleRules.Error
import StyleRules.Pattern.Automaton
import StyleRules.Pattern.Reader

/-!
# Patterns

* `Pattern`: a pattern source with its expression;
* `Pattern.isAdmitted`: the limits on nesting and size;
* **`Pattern.compile`**: the pattern of a source;
* `Pattern.textSource`, **`Pattern.ofText`**: the pattern that finds the words of a text, whatever
  the blanks between them;
* `Pattern.isMatch`: whether a text holds a match.
-/

namespace StyleRules

/-- A pattern source with its expression. -/
structure Pattern where
  source : Text
  regex : Pattern.Regex

namespace Pattern

/-- How deep expressions may be nested. -/
def nestLimit : Nat := 250

/-- Whether an expression is nested within the limit and its automata keep within theirs. -/
def isAdmitted (r : Regex) : Bool := r.nestsWithin nestLimit && r.form.fits

/-- **The pattern of a source**, whose expression must keep within the limits. -/
def compile (source : Text) : Except Error Pattern :=
  match Regex.read? source with
  | some regex => if isAdmitted regex then .ok ⟨source, regex⟩ else .error .badPattern
  | none => .error .badPattern

/-- Whether a text holds a match. -/
def isMatch (p : Pattern) (t : Text) : Bool := p.regex.search t

/-- The characters that have a meaning of their own in a pattern source. -/
def specialChars : List Char :=
  ['\\', '.', '+', '*', '?', '(', ')', '|', '[', ']', '{', '}', '^', '$', '#', '&', '-', '~']

/-- The source that matches a word literally. -/
def quote (word : Text) : Text :=
  word.flatMap fun c => if c ∈ specialChars then ['\\', c] else [c]

/-- The source that matches the words of a text, with blanks between them. -/
def textSource (t : Text) : Text := Text.join ['\\', 's', '+'] (t.words.map quote)

/-- **The pattern that finds the words of a text**, each literally and in order, with one blank or
more between each two neighbours. -/
def ofText (t : Text) : Except Error Pattern := compile (textSource t)

end Pattern

end StyleRules
