import StyleRules.Pattern.CharSet

/-!
# Regular expressions

A regular expression takes a set of places in a text to the places that it can reach from them. The
places of a text of `n` characters are the `n + 1` gaps between, before and after its characters; a
set of places is a list of `n + 1` booleans.

* `Look`, `Regex`: conditions on a place, and expressions;
* `Regex.nestsWithin`: how deep an expression is built up;
* `Places`: sets of places;
* **`Regex.reach`**: the places reached from a set of places;
* `Regex.search`: whether the expression matches somewhere in a text.
-/

namespace StyleRules.Pattern

/-- A condition on a place in a text. -/
inductive Look where
  | textStart
  | textEnd
  /-- A word character follows and none precedes. -/
  | wordStart
  /-- A word character precedes and none follows. -/
  | wordEnd
  | wordEdge
  | notWordEdge
  deriving DecidableEq, Repr

/-- A regular expression. -/
inductive Regex where
  | chars (s : CharSet)
  /-- A condition on the place, which takes no character. -/
  | look (condition : Look)
  /-- At least `low` times and at most `high` times, if there is such a bound. With `isLazy` the
  shortest match is preferred, which changes no answer whether there is a match. -/
  | times (low : Nat) (high : Option Nat) (isLazy : Bool) (body : Regex)
  /-- A group; groups are numbered in the order in which they open. -/
  | group (number : Nat) (body : Regex)
  | sequence (parts : List Regex)
  | choice (branches : List Regex)

namespace Regex

/-- One given character. -/
def char (c : Char) : Regex := chars (.single c)

/-- At least once. -/
def plus (a : Regex) : Regex := times 1 none false a

/-- Some parts in order; one part alone stands for itself. -/
def ofParts : List Regex → Regex
  | [part] => part
  | parts => sequence parts

/-- One of some branches; one branch alone stands for itself. -/
def ofBranches : List Regex → Regex
  | [branch] => branch
  | branches => choice branches

/-! ## Nesting -/

mutual

/-- Whether groups, repetitions, and sequences and choices of several parts are nested at most `n`
deep, the nesting of character sets included. -/
def nestsWithin (n : Nat) : Regex → Bool
  | chars s => s.nestsWithin n
  | look _ => true
  | times _ _ _ body => n != 0 && body.nestsWithin (n - 1)
  | group _ body => n != 0 && body.nestsWithin (n - 1)
  | sequence parts =>
    if 2 ≤ parts.length then n != 0 && allNestWithin (n - 1) parts else allNestWithin n parts
  | choice branches =>
    if 2 ≤ branches.length then n != 0 && allNestWithin (n - 1) branches
    else allNestWithin n branches

/-- Whether all parts are nested at most `n` deep. -/
def allNestWithin (n : Nat) : List Regex → Bool
  | [] => true
  | part :: parts => part.nestsWithin n && allNestWithin n parts

end

end Regex

/-! ## Sets of places -/

/-- A set of places of a text: whether each one belongs to it, in order. -/
abbrev Places := List Bool

namespace Places

/-- All places of a text. -/
def all (t : Text) : Places := List.replicate (t.length + 1) true

/-- No place of a text. -/
def none (t : Text) : Places := List.replicate (t.length + 1) false

/-- The place before a text. -/
def first (t : Text) : Places := true :: List.replicate t.length false

/-- The place after a text. -/
def last (t : Text) : Places := List.replicate t.length false ++ [true]

/-- The places in either set. -/
def union (s u : Places) : Places := List.zipWith (· || ·) s u

/-- The places in both sets. -/
def inter (s u : Places) : Places := List.zipWith (· && ·) s u

/-- The places right after a character of the given kind that stands after a place of the set. -/
def advance (has : Char → Bool) (t : Text) (s : Places) : Places :=
  false :: List.zipWith (fun here c => here && has c) s t

/-- The places of the set, and all those that only characters of the given kind part from one of
them; the flag says whether the text goes on from such a place. -/
def spread (has : Char → Bool) : Text → Places → Bool → Places
  | c :: t, here :: s, isReached =>
    let isReached := here || isReached
    isReached :: spread has t s (isReached && has c)
  | [], here :: s, isReached => (here || isReached) :: s
  | _, [], _ => []

/-- The places reached by exactly the given number of steps; from no place, none is reached. -/
def iterate (step : Places → Places) : Nat → Places → Places
  | 0, s => s
  | n + 1, s => if s.any id then iterate step n (step s) else s

/-- The places that repeated steps reach, in at most the given number of rounds. -/
def closure (step : Places → Places) : Nat → Places → Places
  | 0, s => s
  | n + 1, s =>
    let wider := s.union (step s)
    if wider == s then s else closure step n wider

@[simp] theorem length_advance (has : Char → Bool) (t : Text) (s : Places) :
    (s.advance has t).length = min s.length t.length + 1 := by
  simp [advance]

@[simp] theorem length_spread (has : Char → Bool) (t : Text) (s : Places) (isReached : Bool) :
    (spread has t s isReached).length = s.length := by
  induction s generalizing t isReached with
  | nil => cases t <;> rfl
  | cons here s ih => cases t <;> simp [spread, ih]

@[simp] theorem iterate_zero (step : Places → Places) (s : Places) : iterate step 0 s = s := rfl

end Places

/-- The places of a text at which a condition holds. A condition on words compares the characters
before and after a place. -/
def Look.places (t : Text) : Look → Places
  | textStart => .first t
  | textEnd => .last t
  | wordStart => words fun before after => !before && after
  | wordEnd => words fun before after => before && !after
  | wordEdge => words fun before after => before != after
  | notWordEdge => words fun before after => before == after
where
  /-- The places at which a relation holds of whether a word character precedes and follows. -/
  words (holds : Bool → Bool → Bool) : Places :=
    let isWord := t.map Text.isWordChar
    List.zipWith holds (false :: isWord) (isWord ++ [false])

namespace Regex

mutual

/-- The set of an expression that always takes one character: a set itself, in a group or not, or a
choice of such. -/
def charSet? : Regex → Option CharSet
  | chars s => some s
  | group _ body => body.charSet?
  | choice branches => (charSets? branches).map .union
  | _ => none

/-- The sets of expressions all of which take one character. -/
def charSets? : List Regex → Option (List CharSet)
  | [] => some []
  | branch :: branches =>
    match branch.charSet?, charSets? branches with
    | some set, some sets => some (set :: sets)
    | _, _ => none

end

/-- The rounds in which a repetition is closed: as many as are allowed beyond the least number, or
as many as the text has places, since each round but the last adds one. -/
def rounds (t : Text) (low : Nat) : Option Nat → Nat
  | some high => high - low
  | none => t.length + 1

mutual

/-- **The places of a text that an expression reaches from a set of places.** A repetition without
a bound spreads from place to place, in one go if it is of single characters. -/
def reach (t : Text) : Regex → Places → Places
  | chars set, s => s.advance (fun c => set.has c) t
  | look condition, s => s.inter (condition.places t)
  | times low high _ body, s =>
    let least := Places.iterate (body.reach t) low s
    match high, body.charSet? with
    | none, some set => Places.spread (fun c => set.has c) t least false
    | _, _ => Places.closure (body.reach t) (rounds t low high) least
  | group _ body, s => body.reach t s
  | sequence parts, s => reachAll t parts s
  | choice branches, s => reachAny t branches s (.none t)

/-- The places that some parts reach, one after the other. -/
def reachAll (t : Text) : List Regex → Places → Places
  | [], s => s
  | part :: parts, s => reachAll t parts (part.reach t s)

/-- The places that some branches reach, each from the same places, and those at hand. -/
def reachAny (t : Text) : List Regex → Places → Places → Places
  | [], _, reached => reached
  | branch :: branches, s, reached => reachAny t branches s (reached.union (branch.reach t s))

end

/-- **Whether an expression matches somewhere in a text.** -/
def search (r : Regex) (t : Text) : Bool := (r.reach t (.all t)).any id

end Regex

end StyleRules.Pattern
