import StyleRules.Error
import StyleRules.Rule.Tree
import StyleRules.Selector.Basic
import StyleRules.Source.Declaration
import StyleRules.Source.Token

/-!
# Building a rule tree from tokens

Selector blocks are flattened into their group, which is the innermost enclosing at-rule or the
root; at-rules always stand in the root; a property is written to the innermost enclosing selector
or at-rule, under the joined names of the enclosing property blocks.

* `BlockKind`, `Target`, `Target.modify`;
* `Builder`: the open blocks and the tree so far;
* **`Builder.feed`**, `Builder.run`: the effect of one token, and of several;
* `Builder.finish`: the tree at the end of the text.
-/

namespace StyleRules.Source

/-- What a `{` opens. -/
inductive BlockKind where
  | selector
  | atRule
  | properties
  deriving DecidableEq, Repr

/-- A block of the tree that properties are written to. -/
inductive Target where
  | root
  | group (name : Text)
  /-- A selector in the body of an at-rule, or in the tree itself. -/
  | rule (group : Option Text) (selector : Text)
  deriving DecidableEq, Repr

/-- Changes the target's block in a tree; blocks that are missing on the way are made. -/
def Target.modify (target : Target) (change : RuleTree → RuleTree) (t : RuleTree) : RuleTree :=
  match target with
  | root => change t
  | group name => t.modifyNode name change
  | rule none selector => t.modifyNode selector change
  | rule (some name) selector => t.modifyNode name fun body => body.modifyNode selector change

/-- The open blocks and the tree so far. Every stack has its innermost entry first: the kinds of all
blocks, the headers of selector blocks, the names of property blocks. -/
structure Builder where
  blocks : List BlockKind := []
  /-- The kinds of the open selector and at-rule blocks. -/
  active : List BlockKind := []
  headers : List Text := []
  /-- The flattened selector of the open selector blocks. -/
  selector : Option Text := none
  names : List Text := []
  /-- The targets of the open selector blocks, the root last. -/
  targets : List Target := [.root]
  /-- The open at-rules, and last the root, which has no name. -/
  groups : List (Option Text) := [none]
  tree : RuleTree := []

namespace Builder

/-- The innermost open at-rule. -/
def group (b : Builder) : Option Text := b.groups.head?.join

/-- The block that selectors are written into. -/
def groupTarget (b : Builder) : Target :=
  match b.group with
  | some name => .group name
  | none => .root

/-- The block that properties are written into. -/
def writeTarget (b : Builder) : Target :=
  if b.active.head? = some .atRule then b.groupTarget else b.targets.head?.getD .root

/-- The name of a property: the names of property blocks, innermost first, joined by dashes. -/
def joinNames (names : List Text) : Text := Text.join ['-'] names.reverse

/-- The flattened selector of headers, innermost first. -/
def flatten (headers : List Text) : Option Text := Selector.combine headers.reverse

/-- Writes a property. -/
def write (b : Builder) (key value : Text) : Builder :=
  { b with tree := b.writeTarget.modify (fun t => t.insert key (.leaf value)) b.tree }

/-- Writes a property unless its value is empty. -/
def writeNonEmpty (b : Builder) (key value : Text) : Builder :=
  if value.isEmpty then b else b.write key value

/-! ## Opening and closing blocks -/

/-- Opens an at-rule block: a fresh block in the root. -/
def openAtRule (b : Builder) (header : Text) : Builder :=
  { b with
    blocks := .atRule :: b.blocks
    active := .atRule :: b.active
    groups := some header :: b.groups
    tree := b.tree.insert header (.node []) }

/-- Opens a selector block: its flattened selector gets a block in the group. -/
def openSelector (b : Builder) (header : Text) : Except Error Builder :=
  match flatten (header :: b.headers) with
  | none => .error (.emptySelector header)
  | some selector =>
    .ok { b with
      blocks := .selector :: b.blocks
      active := .selector :: b.active
      headers := header :: b.headers
      selector := some selector
      targets := .rule b.group selector :: b.targets
      tree := b.groupTarget.modify (fun t => t.modifyNode selector id) b.tree }

/-- Opens a property block; a value in its header is written under the block's own name. -/
def openProperties (b : Builder) (header : Text) : Except Error Builder :=
  match Declaration.find? header with
  | none => .error (.missingProperty header)
  | some declaration =>
    let names := declaration.key :: b.names
    let b := b.writeNonEmpty (joinNames names) declaration.value
    .ok { b with
      blocks := .properties :: b.blocks
      names := names }

/-- Opens the block with the given header: an at-rule, a property block or a selector. A header
with a pseudo-class that is not accepted must open a property block. -/
def openBlock (b : Builder) (header : Text) : Except Error Builder :=
  if isAtRule header then .ok (b.openAtRule header)
  else match Selector.unknownPseudo? header with
    | none => b.openSelector header
    | some pseudo =>
      if opensProperties header then b.openProperties header
      else .error (.unknownPseudo header pseudo)

/-- Leaves a block of the given kind. -/
def leave (b : Builder) : BlockKind → Builder
  | .properties => { b with names := b.names.tail }
  | .selector =>
    { b with
      headers := b.headers.tail
      selector := flatten b.headers.tail
      targets := b.targets.tail }
  | .atRule => { b with groups := b.groups.tail }

/-- Closes the innermost block. -/
def closeBlock (b : Builder) (offset : Nat) : Except Error Builder :=
  match b.blocks with
  | [] => .error (.unmatchedClose offset)
  | kind :: blocks =>
    .ok { b.leave kind with
      blocks := blocks
      active := if b.active.head? = some kind then b.active.tail else b.active }

/-! ## Tokens -/

/-- The effect of a statement: an at-rule is noted in the root, a declaration is written, and any
other text is ignored. -/
def statement (b : Builder) (text : Text) : Builder :=
  if isAtRule text then { b with tree := b.tree.insert text .absent }
  else match Declaration.find? text with
    | some declaration =>
      b.writeNonEmpty (joinNames (declaration.key :: b.names)) declaration.value
    | none => b

/-- **The effect of one token.** Text before a closing brace is ignored. -/
def feed (b : Builder) (token : Token) : Except Error Builder :=
  match token.delimiter with
  | .openBrace => b.openBlock token.text
  | .closeBrace => b.closeBlock token.offset
  | .semicolon | .endOfText => .ok (b.statement token.text)

/-- The effect of several tokens; the first that is refused ends it. -/
def run (b : Builder) (tokens : List Token) : Except Error Builder := tokens.foldlM feed b

@[simp] theorem run_nil (b : Builder) : b.run [] = .ok b := rfl

theorem run_cons (b : Builder) (token : Token) (tokens : List Token) :
    b.run (token :: tokens) = (b.feed token).bind fun next => next.run tokens := rfl

theorem run_append (b : Builder) (tokens more : List Token) :
    b.run (tokens ++ more) = (b.run tokens).bind fun next => next.run more :=
  List.foldlM_append

/-- The tree at the end of a text of the given size, without its empty rules; nothing if it has no
entries. -/
def finish (b : Builder) (size : Nat) : Except Error (Option RuleTree) :=
  if b.blocks.isEmpty then
    let t := b.tree.pruneEmpty
    .ok (if t.isEmpty then none else some t)
  else .error (.unmatchedOpen size)

end Builder

end StyleRules.Source
