import StyleRules.Text.Blank

/-!
# Tokens of style text

A style text is cut at every `{`, `}` and `;` that no backslash hides, and once more at its end.

* `Delimiter`, `Token`;
* **`tokens`**: the tokens of a text in normal form.
-/

namespace StyleRules.Source

/-- What ends a token. -/
inductive Delimiter where
  | openBrace
  | closeBrace
  | semicolon
  | endOfText
  deriving DecidableEq, Repr

/-- The delimiter that a character is. -/
def Delimiter.ofChar? (c : Char) : Option Delimiter :=
  if c = '{' then some .openBrace
  else if c = '}' then some .closeBrace
  else if c = ';' then some .semicolon
  else none

/-- A piece of text and what ends it. -/
structure Token where
  text : Text
  delimiter : Delimiter
  /-- The number of bytes before the delimiter. -/
  offset : Nat
  deriving DecidableEq, Repr

/-- The token with `t` put before its text. -/
def Token.prepend (t : Text) (token : Token) : Token := { token with text := t ++ token.text }

/-- The token with its text trimmed. -/
def Token.trim (token : Token) : Token := { token with text := token.text.trim }

/-- The pieces of a text that `offset` bytes precede, untrimmed. A backslash takes the next
character with it. -/
def piecesFrom : Nat → Text → List Token
  | offset, [] => [⟨[], .endOfText, offset⟩]
  | offset, '\\' :: c :: t =>
    (piecesFrom (offset + '\\'.utf8Size + c.utf8Size) t).modifyHead (.prepend ['\\', c])
  | offset, c :: t =>
    match Delimiter.ofChar? c with
    | some delimiter => ⟨[], delimiter, offset⟩ :: piecesFrom (offset + c.utf8Size) t
    | none => (piecesFrom (offset + c.utf8Size) t).modifyHead (.prepend [c])

theorem piecesFrom_ne_nil (offset : Nat) (t : Text) : piecesFrom offset t ≠ [] := by
  fun_induction piecesFrom offset t <;> simp_all [List.modifyHead_eq_nil_iff]

/-- **The tokens of a text**, with their texts trimmed; the last one stands at the end of the
text. -/
def tokens (t : Text) : List Token := (piecesFrom 0 t).map Token.trim

end StyleRules.Source
