import StyleRules.Pattern.Regex

/-!
# Reading pattern sources

A pattern source is cut into lexemes, characters with or without a backslash before them, which are
read one by one with a view of those that follow. Groups and bracketed sets that are still open
stand on stacks.

* `Lexeme`, `lexemes`;
* `classEscape?`, `charEscape?`, `lookEscape?`: what a backslash makes of the next character;
* `countBounds?`: the bounds of a counted repetition;
* `OpenSet`: a bracketed set that is being read;
* `OpenGroup`, `Reader`: the expression so far, and **`Reader.step?`**, the effect of one lexeme;
* **`Regex.read?`**: the expression of a pattern source.
-/

namespace StyleRules.Pattern

/-! ## Lexemes -/

/-- A unit of a pattern source. -/
inductive Lexeme where
  | plain (c : Char)
  | escaped (c : Char)
  /-- A backslash at the end of the source. -/
  | dangling
  deriving DecidableEq, Repr

/-- The lexemes of a source. -/
def lexemes : Text → List Lexeme
  | [] => []
  | ['\\'] => [.dangling]
  | '\\' :: c :: rest => .escaped c :: lexemes rest
  | c :: rest => .plain c :: lexemes rest

/-- The character of a lexeme without a backslash. -/
def Lexeme.plain? : Lexeme → Option Char
  | plain c => some c
  | _ => none

/-! ## Escapes -/

/-- The class that a letter after a backslash names; a capital letter names its complement. -/
def classEscape? : Char → Option CharSet
  | 's' => some (.named false .blank)
  | 'S' => some (.named true .blank)
  | 'd' => some (.named false .digit)
  | 'D' => some (.named true .digit)
  | 'w' => some (.named false .word)
  | 'W' => some (.named true .word)
  | _ => none

/-- The character that a backslash and the given character stand for: a control character for some
letters, and every ASCII character that is no letter, no digit and no angle bracket for itself. -/
def charEscape? (c : Char) : Option Char :=
  match c with
  | 'n' => some '\n'
  | 'r' => some '\r'
  | 't' => some '\t'
  | 'a' => some '\x07'
  | 'v' => some '\x0b'
  | 'f' => some '\x0c'
  | '<' | '>' => none
  | _ => if c.toNat < 128 && !c.isAlphanum then some c else none

/-- The condition that a backslash and the given character stand for. -/
def lookEscape? : Char → Option Look
  | 'A' => some .textStart
  | 'z' => some .textEnd
  | '<' => some .wordStart
  | '>' => some .wordEnd
  | 'b' => some .wordEdge
  | 'B' => some .notWordEdge
  | _ => none

/-- The expression that a backslash and the given character stand for. -/
def escape? (c : Char) : Option Regex :=
  match classEscape? c, charEscape? c with
  | some set, _ => some (.chars set)
  | none, some d => some (.char d)
  | none, none => (lookEscape? c).map .look

/-! ## Counted repetition -/

/-- A count: digits, with blanks around them allowed, that fits in 32 bits. -/
def count? (t : Text) : Option Nat :=
  let digits := t.trim
  if digits.isEmpty || !digits.all Char.isDigit then none
  else
    let n := digits.foldl (fun n c => 10 * n + (c.toNat - '0'.toNat)) 0
    if n < 4294967296 then some n else none

/-- The bounds between the braces of a counted repetition: `n`, `n,` or `n,m` with `n ≤ m`. -/
def countBounds? (t : Text) : Option (Nat × Option Nat) :=
  match t.splitOn ',' with
  | [exact] => (count? exact).map fun n => (n, some n)
  | [low, []] => (count? low).map fun n => (n, none)
  | [low, high] =>
    match count? low, count? high with
    | some n, some m => if n ≤ m then some (n, some m) else none
    | _, _ => none
  | _ => none

/-! ## Bracketed sets -/

/-- Where the reader stands in a bracketed set. -/
inductive SetPlace where
  | opened
  /-- Right after the mark of a complement. -/
  | marked
  /-- After dashes that open the set, which stand for themselves. -/
  | dashes
  | inside
  deriving DecidableEq, Repr

/-- A bracketed set that is being read, its parts since the last operator latest first. -/
structure OpenSet where
  place : SetPlace := .opened
  isNegated : Bool := false
  /-- What stands before the last operator, and that operator. -/
  left : Option (CharSet × SetOperator) := none
  parts : List CharSet := []

namespace OpenSet

/-- Takes one more part in. -/
def push (s : OpenSet) (part : CharSet) : OpenSet :=
  { s with place := .inside, parts := part :: s.parts }

/-- All that was read, operators applied from left to right. -/
def body (s : OpenSet) : CharSet :=
  let right := CharSet.ofParts s.parts.reverse
  match s.left with
  | none => right
  | some (left, op) => .combine op left right

/-- Takes an operator in. -/
def operator (s : OpenSet) (op : SetOperator) : OpenSet :=
  { s with place := .inside, left := some (s.body, op), parts := [] }

/-- The finished set. -/
def toCharSet (s : OpenSet) : CharSet := .bracket s.isNegated s.body

end OpenSet

/-- The operator that a character stands for when it is doubled. -/
def operator? : Char → Option SetOperator
  | '&' => some .inter
  | '-' => some .diff
  | '~' => some .symmDiff
  | _ => none

/-- The character that a lexeme stands for in a bracketed set. -/
def setChar? : Lexeme → Option Char
  | .plain c => some c
  | .escaped c => if (classEscape? c).isSome then none else charEscape? c
  | .dangling => none

/-- The part of a bracketed set that a lexeme stands for by itself. -/
def setPart? : Lexeme → Option CharSet
  | .escaped c =>
    match classEscape? c with
    | some set => some set
    | none => (charEscape? c).map .single
  | l => (setChar? l).map .single

/-- The part of a bracketed set that starts with a lexeme, and how many lexemes more it takes: a
range, if a dash follows that neither ends the set nor is doubled, and else the lexeme alone. -/
def setItem? (l : Lexeme) : List Lexeme → Option (CharSet × Nat)
  | .plain '-' :: next :: _ =>
    if next = .plain ']' ∨ next = .plain '-' then (setPart? l).map (·, 0)
    else
      match setChar? l, setChar? next with
      | some low, some high => if low ≤ high then some (.range low high, 2) else none
      | _, _ => none
  | _ => (setPart? l).map (·, 0)

/-- The ASCII class that follows a bracket in a set, such as `:alpha:]` or `:^alpha:]`, and how
many lexemes it takes. -/
def asciiClass? (rest : List Lexeme) : Option (CharSet × Nat) :=
  match rest with
  | .plain ':' :: .plain '^' :: rest => (named? rest).map fun r => (.named true r.1, r.2 + 2)
  | .plain ':' :: rest => (named? rest).map fun r => (.named false r.1, r.2 + 1)
  | _ => none
where
  /-- A class name with a colon and a bracket after it, and the number of their lexemes. -/
  named? (rest : List Lexeme) : Option (CharClass × Nat) :=
    let name := rest.takeWhile (· ≠ .plain ':')
    match rest.drop name.length with
    | .plain ':' :: .plain ']' :: _ =>
      (CharClass.asciiNamed? (String.ofList (name.filterMap Lexeme.plain?))).map
        (·, name.length + 2)
    | _ => none

/-! ## The reader -/

/-- A group that is being read, its branches and the parts of the current one latest first. -/
structure OpenGroup where
  /-- The number of the group; the whole pattern is number zero. -/
  number : Nat := 0
  branches : List Regex := []
  parts : List Regex := []

namespace OpenGroup

/-- The current branch. -/
def branch (g : OpenGroup) : Regex := .ofParts g.parts.reverse

/-- What was read in the group. -/
def body (g : OpenGroup) : Regex := .ofBranches (g.branch :: g.branches).reverse

/-- The group with one more part. -/
def push (g : OpenGroup) (part : Regex) : OpenGroup := { g with parts := part :: g.parts }

/-- The group with a new branch begun. -/
def split (g : OpenGroup) : OpenGroup := { g with branches := g.branch :: g.branches, parts := [] }

end OpenGroup

/-- The expression read so far. The sets that are open, and the groups around the innermost open
group, stand innermost first. -/
structure Reader where
  /-- How many of the next lexemes have been taken in already. -/
  skip : Nat := 0
  sets : List OpenSet := []
  group : OpenGroup := {}
  outer : List OpenGroup := []
  /-- How many groups have been opened. -/
  opened : Nat := 0

namespace Reader

/-- Takes one more part in. -/
def push (r : Reader) (part : Regex) : Reader := { r with group := r.group.push part }

/-- Opens a group. -/
def openGroup (r : Reader) : Reader :=
  { r with
    group := { number := r.opened + 1 }
    outer := r.group :: r.outer
    opened := r.opened + 1 }

/-- Closes the innermost group, which must have been opened. -/
def closeGroup? (r : Reader) : Option Reader :=
  match r.outer with
  | [] => none
  | group :: outer =>
    some { r with group := group.push (.group r.group.number r.group.body), outer := outer }

/-- Repeats the last part, which must exist; a question mark after a repetition asks for the
shortest match. The repetition takes `taken` of the lexemes that follow. -/
def repeat? (r : Reader) (low : Nat) (high : Option Nat) (taken : Nat) (rest : List Lexeme) :
    Option Reader :=
  match r.group.parts with
  | [] => none
  | part :: parts =>
    let isLazy := (rest.drop taken).head? == some (.plain '?')
    some { r with
      skip := if isLazy then taken + 1 else taken
      group := { r.group with parts := .times low high isLazy part :: parts } }

/-- Repeats the last part as often as the bounds up to the closing brace say. -/
def counted? (r : Reader) (rest : List Lexeme) : Option Reader :=
  let inner := rest.takeWhile (· ≠ .plain '}')
  if inner.length < rest.length then
    match inner.mapM Lexeme.plain? with
    | none => none
    | some t =>
      match countBounds? t with
      | none => none
      | some (low, high) => r.repeat? low high (inner.length + 1) rest
  else none

/-- The effect of a lexeme outside of bracketed sets. -/
def plain? (r : Reader) (l : Lexeme) (rest : List Lexeme) : Option Reader :=
  match l with
  | .escaped c => (escape? c).map r.push
  | .dangling => none
  | .plain '[' => some { r with sets := [{}] }
  | .plain '(' => some r.openGroup
  | .plain ')' => r.closeGroup?
  | .plain '|' => some { r with group := r.group.split }
  | .plain '*' => r.repeat? 0 none 0 rest
  | .plain '+' => r.repeat? 1 none 0 rest
  | .plain '?' => r.repeat? 0 (some 1) 0 rest
  | .plain '{' => r.counted? rest
  | .plain '.' => some (r.push (.chars .anyInLine))
  | .plain '^' => some (r.push (.look .textStart))
  | .plain '$' => some (r.push (.look .textEnd))
  | .plain c => some (r.push (.char c))

/-- Closes the innermost set: it becomes a part of the set around it, or of the expression. -/
def closeSet (r : Reader) (s : OpenSet) : List OpenSet → Reader
  | [] => { r.push (.chars s.toCharSet) with sets := [] }
  | outer :: sets => { r with sets := outer.push s.toCharSet :: sets }

/-- The effect of a lexeme in a bracketed set `s`, which stands in the sets `outer`. -/
def inSet? (r : Reader) (s : OpenSet) (outer : List OpenSet) (l : Lexeme) (rest : List Lexeme) :
    Option Reader :=
  let stay (s : OpenSet) (skip : Nat) : Reader := { r with skip := skip, sets := s :: outer }
  let item := (setItem? l rest).map fun (part, skip) => stay (s.push part) skip
  match s.place, l with
  | .opened, .plain '^' => some (stay { s with place := .marked, isNegated := true } 0)
  | .inside, .plain ']' | .dashes, .plain ']' => some (r.closeSet s outer)
  | _, .plain ']' => some (stay (s.push (.single ']')) 0)
  | .inside, .plain '-' =>
    if rest.head? = some l then some (stay (s.operator .diff) 1) else item
  | _, .plain '-' => some (stay { s.push (.single '-') with place := .dashes } 0)
  | _, .plain '[' =>
    match asciiClass? rest with
    | some (part, skip) => some (stay (s.push part) skip)
    | none => some { r with sets := {} :: { s with place := .inside } :: outer }
  | _, .plain c =>
    match operator? c with
    | some op => if rest.head? = some l then some (stay (s.operator op) 1) else item
    | none => item
  | _, _ => item

/-- **The effect of one lexeme**, seeing those that follow it. -/
def step? (r : Reader) (l : Lexeme) (rest : List Lexeme) : Option Reader :=
  if r.skip = 0 then
    match r.sets with
    | [] => r.plain? l rest
    | s :: outer => r.inSet? s outer l rest
  else some { r with skip := r.skip - 1 }

/-- The effect of some lexemes in order. -/
def run : List Lexeme → Reader → Option Reader
  | [], r => some r
  | l :: rest, r =>
    match r.step? l rest with
    | none => none
    | some r => run rest r

/-- The whole expression, if nothing is left open. -/
def finish? (r : Reader) : Option Regex :=
  match r.sets, r.outer with
  | [], [] => some r.group.body
  | _, _ => none

@[simp] theorem run_nil (r : Reader) : run [] r = some r := rfl

end Reader

/-- **The expression of a pattern source.** -/
def Regex.read? (source : Text) : Option Regex :=
  (Reader.run (lexemes source) {}).bind Reader.finish?

end StyleRules.Pattern
