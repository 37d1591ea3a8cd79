import StyleRules.Pattern.Spans
import StyleRules.Text.Blank
import StyleRules.Text.WordChar

/-!
# Character sets of patterns

* `CharClass`: the named classes, each a table of code points;
* `SetOperator`: the ways to combine two sets;
* `CharSet`: ranges, classes, bracketed sets, unions and combinations;
* **`CharSet.has`**: membership;
* `CharSet.spans`: the code points of a set;
* `CharSet.nestsWithin`: how deep a set is built up.
-/

namespace StyleRules.Pattern

/-- The named classes of characters. -/
inductive CharClass where
  | blank
  | digit
  | word
  /-- Some ASCII characters, by their code points. -/
  | ascii (ranges : List (Nat × Nat))
  deriving DecidableEq, Repr

namespace CharClass

/-- The code points of a class, in increasing order. -/
def ranges : CharClass → List (Nat × Nat)
  | blank => Text.blankRanges
  | digit => Text.digitRanges
  | word => Text.wordRanges
  | ascii ranges => ranges

/-- Membership in a class. -/
def has (cls : CharClass) (c : Char) : Bool := Text.inRanges cls.ranges c

@[simp] theorem has_blank : has blank = Text.isBlank := rfl

@[simp] theorem has_digit : has digit = Text.isDigit := rfl

@[simp] theorem has_word : has word = Text.isWordChar := rfl

/-- The ASCII classes by name. -/
def asciiNamed? (name : String) : Option CharClass :=
  match name with
  | "alnum" => some (.ascii [(0x30, 0x39), (0x41, 0x5A), (0x61, 0x7A)])
  | "alpha" => some (.ascii [(0x41, 0x5A), (0x61, 0x7A)])
  | "ascii" => some (.ascii [(0x00, 0x7F)])
  | "blank" => some (.ascii [(0x09, 0x09), (0x20, 0x20)])
  | "cntrl" => some (.ascii [(0x00, 0x1F), (0x7F, 0x7F)])
  | "digit" => some (.ascii [(0x30, 0x39)])
  | "graph" => some (.ascii [(0x21, 0x7E)])
  | "lower" => some (.ascii [(0x61, 0x7A)])
  | "print" => some (.ascii [(0x20, 0x7E)])
  | "punct" => some (.ascii [(0x21, 0x2F), (0x3A, 0x40), (0x5B, 0x60), (0x7B, 0x7E)])
  | "space" => some (.ascii [(0x09, 0x0D), (0x20, 0x20)])
  | "upper" => some (.ascii [(0x41, 0x5A)])
  | "word" => some (.ascii [(0x30, 0x39), (0x41, 0x5A), (0x5F, 0x5F), (0x61, 0x7A)])
  | "xdigit" => some (.ascii [(0x30, 0x39), (0x41, 0x46), (0x61, 0x66)])
  | _ => none

end CharClass

/-- The ways to combine two sets. -/
inductive SetOperator where
  | inter
  | diff
  | symmDiff
  deriving DecidableEq, Repr

namespace SetOperator

/-- Membership in the combined set, from membership in the two. -/
def holds : SetOperator → Bool → Bool → Bool
  | inter, a, b => a && b
  | diff, a, b => a && !b
  | symmDiff, a, b => a != b

/-- The code points of the combined set. -/
def spans : SetOperator → Spans → Spans → Spans
  | inter => Spans.inter
  | diff => Spans.diff
  | symmDiff => Spans.symmDiff

end SetOperator

/-- A set of characters. -/
inductive CharSet where
  /-- The characters from `low` to `high`, both included. -/
  | range (low high : Char)
  /-- The characters of a class, or with `isNegated` all others. -/
  | named (isNegated : Bool) (cls : CharClass)
  | bracket (isNegated : Bool) (body : CharSet)
  | union (parts : List CharSet)
  | combine (op : SetOperator) (left right : CharSet)

namespace CharSet

/-- The set of one character. -/
def single (c : Char) : CharSet := range c c

/-- All characters but the line break. -/
def anyInLine : CharSet := bracket true (single '\n')

/-- The union of some parts; one part alone stands for itself. -/
def ofParts : List CharSet → CharSet
  | [part] => part
  | parts => union parts

/-! ## Membership -/

mutual

/-- **Membership in a set.** -/
def has (c : Char) : CharSet → Bool
  | range low high => low ≤ c && c ≤ high
  | named isNegated cls => isNegated != cls.has c
  | bracket isNegated body => isNegated != body.has c
  | union parts => hasAny c parts
  | combine op left right => op.holds (left.has c) (right.has c)

/-- Membership in one of the parts. -/
def hasAny (c : Char) : List CharSet → Bool
  | [] => false
  | part :: parts => part.has c || hasAny c parts

end

@[simp] theorem has_single (c d : Char) : (single c).has d = (c == d) := by
  simp only [single, has]
  rw [Bool.eq_iff_iff]
  simp only [Bool.and_eq_true, decide_eq_true_eq, beq_iff_eq]
  exact ⟨fun h => Char.le_antisymm h.1 h.2, fun h => h ▸ ⟨Char.le_refl c, Char.le_refl c⟩⟩

@[simp] theorem has_named (cls : CharClass) (c : Char) : (named false cls).has c = cls.has c := by
  simp [has]

/-! ## Code points -/

mutual

/-- The code points of a set. -/
def spans : CharSet → Spans
  | range low high => [(low.toNat, high.toNat)]
  | named isNegated cls => if isNegated then Spans.complement cls.ranges else cls.ranges
  | bracket isNegated body => if isNegated then body.spans.complement else body.spans
  | union parts => spansAll parts []
  | combine op left right => op.spans left.spans right.spans

/-- The code points of some parts, joined with those at hand. -/
def spansAll : List CharSet → Spans → Spans
  | [], s => s
  | part :: parts, s => spansAll parts (s.union part.spans)

end

/-! ## Nesting -/

mutual

/-- Whether brackets, combinations and unions of several parts are nested at most `n` deep. -/
def nestsWithin (n : Nat) : CharSet → Bool
  | range _ _ => true
  | named _ _ => true
  | bracket _ body => n != 0 && body.nestsWithin (n - 1)
  | union parts =>
    if 2 ≤ parts.length then n != 0 && allNestWithin (n - 1) parts else allNestWithin n parts
  | combine _ left right => n != 0 && left.nestsWithin (n - 1) && right.nestsWithin (n - 1)

/-- Whether all parts are nested at most `n` deep. -/
def allNestWithin (n : Nat) : List CharSet → Bool
  | [] => true
  | part :: parts => part.nestsWithin n && allNestWithin n parts

end

end CharSet

end StyleRules.Pattern
