import StyleRules.Pattern.Regex

/-!
# Normal forms

The form of an expression that automata are built from. Neighbouring characters are one literal,
repetitions that cannot matter are gone, a choice of single characters is a set, and what all
branches of a choice start with stands before it.

* `Form`, with `Form.same` to compare two forms;
* `Form.shortest`, `Form.onlyEmpty`, `Form.startsAnchored`, `Form.endsAnchored`: properties;
* `Form.ofSpans`, `Form.repeated`, `Form.joined`, `Form.chosen`: the simplifications;
* **`Regex.form`**: the normal form of an expression;
* `Form.reversed`: all sequences in reverse order.
-/

namespace StyleRules.Pattern

/-- An expression in normal form. -/
inductive Form where
  | empty
  | literal (t : Text)
  /-- One character of a set; it is none or several. -/
  | set (spans : Spans)
  | look (condition : Look)
  | times (low : Nat) (high : Option Nat) (isLazy : Bool) (body : Form)
  | group (number : Nat) (body : Form)
  | sequence (parts : List Form)
  | choice (branches : List Form)

namespace Form

/-! ## Comparison -/

mutual

/-- Whether two forms are equal. -/
def same : Form → Form → Bool
  | empty, empty => true
  | literal t, literal u => t == u
  | set s, set u => s == u
  | look c, look d => c == d
  | times low high isLazy body, times low' high' isLazy' body' =>
    low == low' && high == high' && isLazy == isLazy' && body.same body'
  | group number body, group number' body' => number == number' && body.same body'
  | sequence parts, sequence parts' => allSame parts parts'
  | choice branches, choice branches' => allSame branches branches'
  | _, _ => false

/-- Whether two lists of forms are equal. -/
def allSame : List Form → List Form → Bool
  | [], [] => true
  | f :: fs, g :: gs => f.same g && allSame fs gs
  | _, _ => false

end

/-! ## Properties -/

mutual

/-- The least number of bytes that a match takes, not known if some set is empty. -/
def shortest : Form → Option Nat
  | empty => some 0
  | literal t => some t.utf8Size
  | set [] => none
  | set ((low, _) :: _) => some (Char.ofNat low).utf8Size
  | look _ => some 0
  | times low _ _ body => body.shortest.map (low * ·)
  | group _ body => body.shortest
  | sequence parts => shortestSum parts 0
  | choice [] => none
  | choice (branch :: branches) => branch.shortest.bind (shortestLeast branches)

/-- The least numbers of bytes of some parts, added to the number at hand. -/
def shortestSum : List Form → Nat → Option Nat
  | [], n => some n
  | part :: parts, n => part.shortest.bind fun m => shortestSum parts (n + m)

/-- The least of the least numbers of bytes of some branches and the number at hand. -/
def shortestLeast : List Form → Nat → Option Nat
  | [], n => some n
  | branch :: branches, n => branch.shortest.bind fun m => shortestLeast branches (min n m)

end

mutual

/-- Whether a match never takes a character. -/
def onlyEmpty : Form → Bool
  | empty => true
  | literal t => t.isEmpty
  | set _ => false
  | look _ => true
  | times _ _ _ body => body.onlyEmpty
  | group _ body => body.onlyEmpty
  | sequence parts => allOnlyEmpty parts
  | choice branches => allOnlyEmpty branches

/-- Whether no match of the given forms takes a character. -/
def allOnlyEmpty : List Form → Bool
  | [] => true
  | part :: parts => part.onlyEmpty && allOnlyEmpty parts

end

mutual

/-- Whether every match starts at the start of the text, as far as the outermost parts show it. -/
def startsAnchored : Form → Bool
  | look condition => condition == .textStart
  | times low _ _ body => low != 0 && body.startsAnchored
  | group _ body => body.startsAnchored
  | sequence parts => startsAnchoredIn parts
  | choice branches => allStartAnchored branches
  | _ => false

/-- Whether one of the parts up to the first that can take a character starts at the start. -/
def startsAnchoredIn : List Form → Bool
  | [] => false
  | part :: parts => part.startsAnchored || part.onlyEmpty && startsAnchoredIn parts

/-- Whether all branches start at the start. -/
def allStartAnchored : List Form → Bool
  | [] => true
  | branch :: branches => branch.startsAnchored && allStartAnchored branches

end

mutual

/-- Whether every match ends at the end of the text, as far as the outermost parts show it. -/
def endsAnchored : Form → Bool
  | look condition => condition == .textEnd
  | times low _ _ body => low != 0 && body.endsAnchored
  | group _ body => body.endsAnchored
  | sequence parts => endsAnchoredIn parts false
  | choice branches => allEndAnchored branches
  | _ => false

/-- Whether one of the parts from the last that can take a character on ends at the end; the flag
says whether one of the parts before does. -/
def endsAnchoredIn : List Form → Bool → Bool
  | [], found => found
  | part :: parts, found => endsAnchoredIn parts (part.endsAnchored || part.onlyEmpty && found)

/-- Whether all branches end at the end. -/
def allEndAnchored : List Form → Bool
  | [] => true
  | branch :: branches => branch.endsAnchored && allEndAnchored branches

end

/-! ## Simplification -/

/-- A set; one character alone is a literal. -/
def ofSpans (s : Spans) : Form :=
  match s with
  | [(low, high)] => if low = high then literal [Char.ofNat low] else set s
  | _ => set s

/-- A repetition. What never takes a character is repeated once at most, nothing is left of what is
never repeated, and what is done once stands for itself. -/
def repeated (low : Nat) (high : Option Nat) (isLazy : Bool) (body : Form) : Form :=
  let (low, high) :=
    if body.onlyEmpty then (min low 1, some (min (high.getD 1) 1)) else (low, high)
  if high = some 0 then empty
  else if low = 1 ∧ high = some 1 then body
  else times low high isLazy body

/-- One more part before the others; literals side by side become one, and sequences dissolve. -/
def glue (part : Form) (parts : List Form) : List Form :=
  match part, parts with
  | empty, _ => parts
  | sequence inner, _ => inner.foldr glueOne parts
  | _, _ => glueOne part parts
where
  /-- One more part, no sequence, before the others. -/
  glueOne (part : Form) (parts : List Form) : List Form :=
    match part, parts with
    | literal t, literal u :: rest => literal (t ++ u) :: rest
    | _, _ => part :: parts

/-- Some parts in order. -/
def joined (parts : List Form) : Form :=
  match parts.foldr glue [] with
  | [] => empty
  | [part] => part
  | parts => sequence parts

/-- The single character of a literal. -/
def char? : Form → Option Char
  | literal [c] => some c
  | _ => none

/-- The code points of a set. -/
def spans? : Form → Option Spans
  | set s => some s
  | _ => none

/-- The parts of a sequence. -/
def parts? : Form → Option (List Form)
  | sequence parts => some parts
  | _ => none

/-- The parts with which both lists begin. -/
def commonStart : List Form → List Form → List Form
  | f :: fs, g :: gs => if f.same g then f :: commonStart fs gs else []
  | _, _ => []

/-- The parts with which all of some lists begin. -/
def sharedStart : List (List Form) → List Form
  | [] => []
  | parts :: lists => lists.foldl commonStart parts

/-- A choice among branches that share no start: single characters make a set, and so do sets. -/
def plainChoice (branches : List Form) : Form :=
  match branches, branches.mapM char?, branches.mapM spans? with
  | [branch], _, _ => branch
  | _, some cs, _ => ofSpans (cs.foldl (fun s c => Spans.insert c.toNat c.toNat s) [])
  | _, _, some sets => ofSpans (sets.foldl Spans.union [])
  | _, _, _ => choice branches

/-- A choice. What all branches start with stands before the choice. -/
def chosen (branches : List Form) : Form :=
  match branches, branches.mapM parts? with
  | _ :: _ :: _, some lists =>
    let start := sharedStart lists
    if start.isEmpty then plainChoice branches
    else
      joined (start ++ [plainChoice (lists.map fun parts => joined (parts.drop start.length))])
  | _, _ => plainChoice branches

end Form

/-! ## The normal form of an expression -/

mutual

/-- **The normal form of an expression.** -/
def Regex.form : Regex → Form
  | .chars s => .ofSpans s.spans
  | .look condition => .look condition
  | .times low high isLazy body => .repeated low high isLazy body.form
  | .group number body => .group number body.form
  | .sequence parts => .joined (Regex.forms parts [])
  | .choice branches => .chosen (Regex.forms branches [])

/-- The normal forms of some expressions, after those at hand, latest first. -/
def Regex.forms : List Regex → List Form → List Form
  | [], fs => fs.reverse
  | r :: rs, fs => Regex.forms rs (r.form :: fs)

end

namespace Form

mutual

/-- The form with all sequences in reverse order. -/
def reversed : Form → Form
  | times low high isLazy body => times low high isLazy body.reversed
  | group number body => group number body.reversed
  | sequence parts => sequence (reversedAll parts [])
  | choice branches => choice (reversedAll branches []).reverse
  | f => f

/-- The reversed forms of some parts, last first, before those at hand. -/
def reversedAll : List Form → List Form → List Form
  | [], fs => fs
  | f :: rest, fs => reversedAll rest (f.reversed :: fs)

end

end Form

end StyleRules.Pattern
