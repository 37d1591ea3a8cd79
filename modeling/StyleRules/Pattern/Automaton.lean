import StyleRules.Pattern.Form
import StyleRules.Pattern.Tally

/-!
# The automata of a pattern

* `Direction`, `Built`: an automaton that is being built;
* `trie`: the states that read one of several literals;
* `Built.exactly?`, `Built.upTo?`, `timesSize?`: repetitions;
* `Form.build?`: the states of a form;
* **`Form.fits`**: whether both automata of a form keep within the limit.
-/

namespace StyleRules.Pattern

/-- The direction in which an automaton reads a text. -/
inductive Direction where
  | forward
  | backward
  deriving DecidableEq, Repr

/-- A part of an automaton. -/
structure Built where
  tally : Tally
  /-- Whether the last state of the part keeps a list of its successors. -/
  endsInFork : Bool := false
  deriving DecidableEq, Repr

namespace Built

/-- The tally after one more state follows the part. -/
def linked (b : Built) : Tally := if b.endsInFork then b.tally.widen 4 else b.tally

/-- The part with `n` plain states after it, with `bytes` of lists in all. -/
def add? (b : Built) (n : Nat) (bytes : Nat := 0) : Option Built :=
  (b.linked.add? n bytes).map fun tally => { tally }

end Built

/-! ## Literals -/

/-- The states, and the bytes of their lists, that read one of some byte strings, whose order says
which is preferred. A string that ends here splits the others into those before it and those after
it; of each, the strings with one first byte go on together. At most `fuel` bytes are read. -/
def trie (fuel : Nat) (strings : List (List Nat)) : Nat × Nat :=
  match fuel with
  | 0 => (0, 0)
  | fuel + 1 =>
    let strings := match strings with
      | [] :: rest => [] :: rest.dropWhile List.isEmpty
      | _ => strings
    let chunks := strings.splitOnP List.isEmpty
    let firsts (chunk : List (List Nat)) : List Nat := (chunk.filterMap List.head?).eraseDups
    let links := chunks.map fun chunk => (firsts chunk).length
    if links.all (· == 0) then (0, 0)
    else
      let taken := links.filter (· != 0)
      let bytes := taken.foldl (fun n k => if k = 1 then n else n + 8 * k) 0
      let here := (taken.length + 1, bytes + 4 * (taken.length + (chunks.length - 1)))
      chunks.foldl (fun size chunk =>
        (firsts chunk).foldl (fun size byte =>
          let more := trie fuel ((chunk.filter (·.head? == some byte)).map List.tail)
          (size.1 + more.1, size.2 + more.2)) size) here

/-! ## Repetitions -/

/-- A part `n` times in a row after another. -/
def Built.exactly? (one : Tally → Option Built) : Nat → Built → Option Built
  | 0, b => some b
  | n + 1, b =>
    match one b.linked with
    | none => none
    | some b => exactly? one n b

/-- A part up to `n` times after another: before each time a fork leads to the end. -/
def Built.upTo? (one : Tally → Option Built) : Nat → Built → Option Built
  | 0, b => some b
  | n + 1, b =>
    match b.linked.add? 1 8 with
    | none => none
    | some t =>
      match one t with
      | none => none
      | some b => upTo? one n b

/-- The states of a repetition of a part; `takesBytes` says whether each match of the part takes a
byte at least. -/
def buildTimes? (one : Tally → Option Built) (takesBytes : Bool) (low : Nat) (high : Option Nat)
    (t : Tally) : Option Built :=
  match low, high with
  | 0, none =>
    if takesBytes then
      (t.add? 1 4).bind fun t => (one t).map fun b => ⟨b.linked, true⟩
    else (one t).bind fun b => b.add? 3 16
  | low + 1, none =>
    (Built.exactly? one (low + 1) { tally := t }).bind fun b =>
      (b.linked.add? 1 4).map fun t => ⟨t, true⟩
  | 0, some 1 => (t.add? 1 8).bind fun t => (one t).bind fun b => b.add? 1
  | 0, some high =>
    (t.add? 2).bind fun t => (Built.upTo? one high { tally := t }).map fun b => ⟨b.linked, false⟩
  | low + 1, some high =>
    match Built.exactly? one (low + 1) { tally := t } with
    | none => none
    | some b =>
      if high ≤ low + 1 then some b
      else
        (b.linked.add? 1).bind fun t =>
          (Built.upTo? one (high - (low + 1)) { tally := t }).map fun b => ⟨b.linked, false⟩

/-! ## Forms -/

/-- The bytes of a literal in the order in which they are read. -/
def Direction.bytes (d : Direction) (t : Text) : List Nat :=
  let bytes := t.flatMap fun c => Utf8.encode c.toNat
  match d with
  | forward => bytes
  | backward => bytes.reverse

/-- The states that read a character of a set. -/
def Direction.addSet? : Direction → Spans → Tally → Option Tally
  | forward => Spans.addForward?
  | backward => Spans.addBackward?

namespace Form

/-- The literal of a form that is one. -/
def literal? : Form → Option Text
  | literal t => some t
  | _ => none

mutual

/-- The states of a form, after those at hand. Groups leave marks in the forward automaton only. -/
def build? (d : Direction) : Form → Tally → Option Built
  | empty, t => (t.add? 1).map fun t => ⟨t, false⟩
  | literal text, t => (t.add? text.utf8Size).map fun t => ⟨t, false⟩
  | set spans, t => (d.addSet? spans t).map fun t => ⟨t, false⟩
  | look _, t => (t.add? 1).map fun t => ⟨t, false⟩
  | times low high _ body, t =>
    buildTimes? (body.build? d) (body.shortest.any (· != 0)) low high t
  | group _ body, t =>
    match d with
    | .forward => (t.add? 1).bind fun t => (body.build? d t).bind fun b => b.add? 1
    | .backward => body.build? d t
  | sequence parts, t => buildAll? d parts ⟨t, false⟩
  | choice branches, t =>
    match branches.mapM literal? with
    | some texts =>
      let strings := texts.map d.bytes
      let size := trie (strings.foldl (fun n s => max n s.length) 0 + 1) strings
      (t.add? (size.1 + 1) size.2).map fun t => ⟨t, false⟩
    | none => buildBranches? d branches 0 t

/-- The states of some parts in a row after another part. -/
def buildAll? (d : Direction) : List Form → Built → Option Built
  | [], b => some b
  | part :: parts, b =>
    match part.build? d b.linked with
    | none => none
    | some b => buildAll? d parts b

/-- The states of some branches, after `n` others. The fork and the place where the branches meet
come after the second. -/
def buildBranches? (d : Direction) : List Form → Nat → Tally → Option Built
  | [], _, t => some ⟨t, false⟩
  | branch :: branches, n, t =>
    match branch.build? d t with
    | none => none
    | some b =>
      match (b.linked.widen 4).add? (if n = 1 then 2 else 0) with
      | none => none
      | some t => buildBranches? d branches (n + 1) t

end

/-- The states of the whole automaton of a form. It starts with a loop over all bytes, unless every
match starts where the reading does, and it ends with a state of its own. -/
def automaton? (d : Direction) (f : Form) : Option Tally :=
  let (isAnchored, f) := match d with
    | .forward => (f.startsAnchored, f)
    | .backward => (f.endsAnchored, f.reversed)
  match (if isAnchored then ({} : Tally).add? 1 else ({} : Tally).add? 3 16) with
  | none => none
  | some t =>
    match (group 0 f).build? d t with
    | none => none
    | some b => (b.add? 1).map Built.tally

/-- **Whether both automata of a form keep within the limit.** -/
def fits (f : Form) : Bool := (f.automaton? .forward).isSome && (f.automaton? .backward).isSome

end Form

end StyleRules.Pattern
