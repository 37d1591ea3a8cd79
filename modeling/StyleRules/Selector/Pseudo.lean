import StyleRules.Text.Blank

/-!
# Pseudo-classes and pseudo-elements

* `pseudoNames`: the accepted names, with their colons;
* `pseudoRuns`: the pieces of a selector that read as such names;
* **`unknownPseudo?`**: the first of them that is not accepted;
* `isValid`: whether a block header can be a selector.
-/

namespace StyleRules.Selector

/-- The accepted pseudo-classes and pseudo-elements, with their colons. -/
def pseudoNames : List Text :=
  [":active", "::after", ":any-link", "::backdrop", "::before", ":blank", ":checked", "::cue",
    "::cue-region", ":current", ":default", ":defined", ":dir", ":disabled", ":empty",
    ":enabled", ":first", ":first-child", "::first-letter", "::first-line", ":first-of-type",
    ":focus", ":focus-visible", ":focus-within", ":fullscreen", ":future", "::grammar-error",
    ":has", ":host", ":host-context", ":hover", ":in-range", ":indeterminate", ":invalid", ":is",
    ":lang", ":last-child", ":last-of-type", ":left", ":link", ":local-link", "::marker", ":not",
    ":nth-child", ":nth-col", ":nth-last-child", ":nth-last-col", ":nth-last-of-type",
    ":nth-of-type", ":only-child", ":only-of-type", ":optional", ":out-of-range", "::part",
    ":past", ":paused", ":picture-in-picture", "::placeholder", ":placeholder-shown", ":playing",
    ":read-only", ":read-write", ":required", ":right", ":root", ":scope", "::selection",
    "::slotted", "::spelling-error", ":target", "::target-text", ":target-within",
    ":user-invalid", ":user-valid", ":valid", ":visited", ":where"].map String.toList

/-- Whether `name`, with its colons, is an accepted pseudo-class or pseudo-element. -/
def isKnownPseudo (name : Text) : Bool := pseudoNames.contains name

/-- The characters of a name: ASCII letters, digits, `_` and `-`. -/
def isNameChar (c : Char) : Bool := c.isAlphanum || c == '_' || c == '-'

/-- The characters that continue a run after its first colon. -/
def isRunChar (c : Char) : Bool := isNameChar c || c == ':'

/-- The runs of `t`; with `inside`, the first of them continues a run that began before `t`. -/
def pseudoRunsFrom : Bool → Text → List Text
  | false, [] => []
  | true, [] => [[]]
  | false, c :: t =>
    if c = ':' then (pseudoRunsFrom true t).modifyHead (c :: ·) else pseudoRunsFrom false t
  | true, c :: t =>
    if isRunChar c then (pseudoRunsFrom true t).modifyHead (c :: ·)
    else [] :: pseudoRunsFrom false t

/-- The maximal pieces of a selector that start with a colon and go on with name characters and
colons, in order. -/
def pseudoRuns (t : Text) : List Text := pseudoRunsFrom false t

/-- Whether `t` starts, after blanks, with `@`. -/
def startsWithAt (t : Text) : Bool := t.trimLeft.head? == some '@'

/-- **The first run of a selector that is not an accepted name.** Text that starts with `@` is no
selector and has none. -/
def unknownPseudo? (t : Text) : Option Text :=
  if startsWithAt t then none else (pseudoRuns t).find? fun name => !isKnownPseudo name

/-- Whether a block header can be a selector. -/
def isValid (t : Text) : Bool := (unknownPseudo? t).isNone

end StyleRules.Selector
