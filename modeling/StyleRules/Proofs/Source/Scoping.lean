import Mathlib.Data.List.Induction
import Mathlib.Tactic.Common
import StyleRules.Source.Parse

/-!
# Lexical scoping

A flat list of tokens lays out statements and nested blocks. What a block means is said by a scope
that is passed down to its body; the builder's stacks hold nothing else.

* `Item`, `Laid`: the statements and blocks that a list of tokens lays out;
* `Item.isLegal`: every block header is an at-rule, a selector or a property block;
* `Scope`, `Item.eval`, `Item.evalAll`: the tree of laid out items, by recursion on the blocks;
* `Builder.Aligned`: what the stacks of a builder have in common with its blocks;
* **`Builder.run_laid`**: on laid out legal items the builder is the evaluator, and its stacks end
  as they began;
* `Builder.spread_of_run`: what the builder accepts is laid out up to its open blocks;
* **`Builder.run_eq_ok_iff_evaluate`**: the builder and the evaluator accept the same tokens, with
  the same trees.
-/

namespace StyleRules.Source

/-! ## Statements and blocks -/

/-- A statement, or a block with its header and what stands in it. -/
inductive Item where
  | statement (text : Text)
  | block (header : Text) (body : List Item)

/-- The items that a list of tokens lays out. The text before a closing brace belongs to no
item. -/
inductive Laid : List Token → List Item → Prop
  | nil : Laid [] []
  | statement {token : Token} {tokens : List Token} {items : List Item} :
    token.delimiter = .semicolon ∨ token.delimiter = .endOfText → Laid tokens items →
      Laid (token :: tokens) (.statement token.text :: items)
  | block {opening closing : Token} {inner tokens : List Token} {body items : List Item} :
    opening.delimiter = .openBrace → Laid inner body → closing.delimiter = .closeBrace →
      Laid tokens items →
      Laid (opening :: (inner ++ closing :: tokens)) (.block opening.text body :: items)

theorem Laid.append {tokens more : List Token} {items others : List Item} (h : Laid tokens items)
    (h' : Laid more others) : Laid (tokens ++ more) (items ++ others) := by
  induction h with
  | nil => exact h'
  | statement hd _ ih => exact .statement hd ih
  | block ho hi hc _ _ ih =>
    rw [List.cons_append, List.append_assoc, List.cons_append, List.cons_append]
    exact .block ho hi hc ih

/-- Whether a block can have this header. -/
def isLegalHeader (header : Text) : Bool :=
  isAtRule header || Selector.isValid header || opensProperties header

mutual

/-- Whether every block header in an item is legal. -/
def Item.isLegal : Item → Bool
  | .statement _ => true
  | .block header body => isLegalHeader header && Item.areLegal body

/-- Whether every block header in the items is legal. -/
def Item.areLegal : List Item → Bool
  | [] => true
  | item :: items => item.isLegal && Item.areLegal items

end

theorem Item.areLegal_append (items others : List Item) :
    areLegal (items ++ others) = (areLegal items && areLegal others) := by
  induction items with
  | nil => rfl
  | cons item items ih => rw [List.cons_append, areLegal, areLegal, ih, Bool.and_assoc]

/-! ## Scopes -/

/-- What a block knows of the blocks around it: the headers of selector blocks and the names of
property blocks, outermost first. -/
structure Scope where
  headers : List Text := []
  /-- The innermost enclosing at-rule; none in the root. -/
  group : Option Text := none
  names : List Text := []
  /-- Where properties are written: fixed by the innermost enclosing selector or at-rule. -/
  target : Target := .root

/-- The body of an at-rule, or the tree itself. -/
def Target.ofGroup : Option Text → Target
  | some name => .group name
  | none => .root

namespace Scope

/-- The flattened selector of a block that is opened here. -/
def selector (s : Scope) (header : Text) : Text :=
  (Selector.combine (s.headers ++ [header])).getD []

/-- The declaration in the header of a property block; the empty one if there is none. -/
def declaration (header : Text) : Declaration := (Declaration.find? header).getD ⟨[], []⟩

/-- Writes a property under its joined names, unless its value is empty. -/
def write (s : Scope) (d : Declaration) (t : RuleTree) : RuleTree :=
  if d.value.isEmpty then t
  else s.target.modify (fun body => body.insert (Text.join ['-'] (s.names ++ [d.key]))
    (.leaf d.value)) t

/-- The scope of the body of a block. -/
def enter (s : Scope) (header : Text) : Scope :=
  if isAtRule header then { s with group := some header, target := .group header }
  else if Selector.isValid header then
    { s with
      headers := s.headers ++ [header]
      target := .rule s.group (s.selector header) }
  else { s with names := s.names ++ [(declaration header).key] }

/-- The tree before the body of a block: an at-rule stores a fresh block in the root, a selector
makes or reuses its block in the group, and a property block writes the value of its header. -/
def openBlock (s : Scope) (header : Text) (t : RuleTree) : RuleTree :=
  if isAtRule header then t.insert header (.node [])
  else if Selector.isValid header then
    (Target.ofGroup s.group).modify (fun body => body.modifyNode (s.selector header) id) t
  else s.write (declaration header) t

/-- The tree after a statement. -/
def statement (s : Scope) (text : Text) (t : RuleTree) : RuleTree :=
  if isAtRule text then t.insert text .absent
  else match Declaration.find? text with
    | some d => s.write d t
    | none => t

end Scope

mutual

/-- The tree after an item. -/
def Item.eval (s : Scope) : Item → RuleTree → RuleTree
  | .statement text, t => s.statement text t
  | .block header body, t => Item.evalAll (s.enter header) body (s.openBlock header t)

/-- The tree after several items. -/
def Item.evalAll (s : Scope) : List Item → RuleTree → RuleTree
  | [], t => t
  | item :: items, t => Item.evalAll s items (item.eval s t)

end

theorem Item.evalAll_append (s : Scope) (items others : List Item) (t : RuleTree) :
    evalAll s (items ++ others) t = evalAll s others (evalAll s items t) := by
  induction items generalizing t with
  | nil => rfl
  | cons item items ih => exact ih _

/-- The tree of items that stand in no block. -/
def evaluate (items : List Item) : RuleTree := Item.evalAll {} items []

/-! ## Headers of property blocks -/

theorem isNameChar_of_isAlphanum {c : Char} (h : (c.isAlphanum || c == '_') = true) :
    Selector.isNameChar c = true := by
  simp only [Selector.isNameChar, h, Bool.true_or]

/-- A header that opens a property block has a declaration. -/
theorem isSome_find?_of_opensProperties {header : Text} (h : opensProperties header = true) :
    (Declaration.find? header).isSome = true := by
  induction header with
  | nil => cases h
  | cons c t ih =>
    rw [Declaration.find?, Option.isSome_or, Bool.or_eq_true]
    rw [opensProperties, Bool.or_eq_true, Bool.and_eq_true] at h
    rcases h with ⟨hc, hcolon⟩ | h
    · -- the colon follows at once, so a declaration starts with this character
      left
      have hn := isNameChar_of_isAlphanum hc
      obtain ⟨rest, rfl⟩ : ∃ rest, t = ':' :: rest := by
        unfold isOpenColon at hcolon
        split at hcolon
        · exact ⟨[], rfl⟩
        · exact ⟨_, rfl⟩
        · cases hcolon
      have hcol : Selector.isNameChar ':' = false := by decide
      have hblank : Text.isBlank ':' = false := by decide
      simp [Declaration.atStart?, Text.trimLeft, hn, hcol, hblank]
    · exact .inr (ih h)

/-! ## The builder on laid out items -/

namespace Builder

/-- What the stacks of a builder have in common with its blocks. -/
structure Aligned (b : Builder) : Prop where
  active_eq : b.active = b.blocks.filter (· ≠ .properties)
  selector_eq : b.selector = flatten b.headers

theorem aligned_init : Aligned {} := ⟨rfl, rfl⟩

theorem Aligned.withTree {b : Builder} (h : b.Aligned) (t : RuleTree) :
    Aligned { b with tree := t } := ⟨h.active_eq, h.selector_eq⟩

theorem Aligned.head_active_ne {b : Builder} (h : b.Aligned) :
    b.active.head? ≠ some .properties := by
  intro hp
  have hm := List.mem_of_mem_head? (Option.mem_def.mpr hp)
  rw [h.active_eq, List.mem_filter] at hm
  simp at hm

/-- The scope that the stacks of a builder stand for. -/
def scope (b : Builder) : Scope :=
  { headers := b.headers.reverse
    group := b.group
    names := b.names.reverse
    target := b.writeTarget }

theorem groupTarget_eq (b : Builder) : b.groupTarget = .ofGroup b.group := by
  unfold groupTarget Target.ofGroup
  rcases b.group with _ | name <;> rfl

theorem flatten_cons (b : Builder) (header : Text) :
    flatten (header :: b.headers) = some (b.scope.selector header) := by
  have hs : (Selector.combine (b.headers.reverse ++ [header])).isSome :=
    Selector.isSome_combine (by simp)
  obtain ⟨sel, hsel⟩ := Option.isSome_iff_exists.mp hs
  rw [flatten, List.reverse_cons, Scope.selector, scope, hsel, Option.getD_some]

theorem joinNames_cons (b : Builder) (key : Text) :
    joinNames (key :: b.names) = Text.join ['-'] (b.scope.names ++ [key]) := by
  rw [joinNames, List.reverse_cons, scope]

theorem writeNonEmpty_eq (b : Builder) (d : Declaration) :
    b.writeNonEmpty (joinNames (d.key :: b.names)) d.value =
      { b with tree := b.scope.write d b.tree } := by
  rw [writeNonEmpty, Scope.write, joinNames_cons]
  split_ifs <;> rfl

theorem statement_eq (b : Builder) (text : Text) :
    b.statement text = { b with tree := b.scope.statement text b.tree } := by
  unfold statement Scope.statement
  split_ifs
  · rfl
  · rcases Declaration.find? text with _ | d
    · rfl
    · exact b.writeNonEmpty_eq d

/-- What opening a block comes to: the builder is in the scope of the block's body, and whatever
is done to the tree, closing the block brings all stacks back. -/
structure Opens (b : Builder) (header : Text) (inner : Builder) : Prop where
  aligned : inner.Aligned
  scope_eq : inner.scope = b.scope.enter header
  tree_eq : inner.tree = b.scope.openBlock header b.tree
  depth_eq : inner.blocks.length = b.blocks.length + 1
  close_eq : ∀ (t : RuleTree) (offset : Nat),
    closeBlock { inner with tree := t } offset = .ok { b with tree := t }

theorem opens_atRule {b : Builder} (hb : b.Aligned) {header : Text} (h : isAtRule header = true) :
    b.Opens header (b.openAtRule header) where
  aligned := ⟨by simp [openAtRule, hb.active_eq], hb.selector_eq⟩
  scope_eq := by
    rw [Scope.enter, if_pos h]
    rfl
  tree_eq := by
    rw [Scope.openBlock, if_pos h]
    rfl
  depth_eq := rfl
  close_eq t offset := by simp [closeBlock, openAtRule, leave]

theorem opens_selector {b : Builder} (hb : b.Aligned) {header : Text}
    (hat : isAtRule header = false) (hv : Selector.isValid header = true) :
    ∃ inner, b.openSelector header = .ok inner ∧ b.Opens header inner := by
  rw [openSelector, flatten_cons]
  refine ⟨_, rfl, ?_, ?_, ?_, rfl, fun t offset => ?_⟩
  · exact ⟨by simp [hb.active_eq], (flatten_cons b header).symm⟩
  · rw [Scope.enter, if_neg (by simp [hat]), if_pos hv]
    simp [scope, group, writeTarget]
  · rw [Scope.openBlock, if_neg (by simp [hat]), if_pos hv, groupTarget_eq]
    rfl
  · simp [closeBlock, leave, hb.selector_eq]

theorem opens_properties {b : Builder} (hb : b.Aligned) {header : Text}
    (hat : isAtRule header = false) (hv : Selector.isValid header = false)
    (hp : opensProperties header = true) :
    ∃ inner, b.openProperties header = .ok inner ∧ b.Opens header inner := by
  obtain ⟨d, hd⟩ := Option.isSome_iff_exists.mp (isSome_find?_of_opensProperties hp)
  have hdecl : Scope.declaration header = d := by rw [Scope.declaration, hd, Option.getD_some]
  rw [openProperties, hd]
  simp only [writeNonEmpty_eq]
  refine ⟨_, rfl, ?_, ?_, ?_, rfl, fun t offset => ?_⟩
  · exact ⟨by simp [hb.active_eq], hb.selector_eq⟩
  · rw [Scope.enter, if_neg (by simp [hat]), if_neg (by simp [hv]), hdecl]
    simp [scope, group, writeTarget, groupTarget]
  · rw [Scope.openBlock, if_neg (by simp [hat]), if_neg (by simp [hv]), hdecl]
  · -- no property block is active, so only the names are popped
    simp [closeBlock, leave, hb.head_active_ne]

theorem openBlock_of_legal {b : Builder} (hb : b.Aligned) {header : Text}
    (h : isLegalHeader header = true) :
    ∃ inner, b.openBlock header = .ok inner ∧ b.Opens header inner := by
  unfold openBlock
  by_cases hat : isAtRule header = true
  · rw [if_pos hat]
    exact ⟨_, rfl, opens_atRule hb hat⟩
  rw [if_neg hat]
  rw [Bool.not_eq_true] at hat
  rw [isLegalHeader, hat, Bool.false_or, Bool.or_eq_true] at h
  rcases hu : Selector.unknownPseudo? header with _ | pseudo
  · exact opens_selector hb hat (by rw [Selector.isValid, hu]; rfl)
  · have hv : Selector.isValid header = false := by rw [Selector.isValid, hu]; rfl
    have hp : opensProperties header = true := h.resolve_left (by simp [hv])
    obtain ⟨inner, hi, ho⟩ := opens_properties hb hat hv hp
    exact ⟨inner, by simpa only [hp, if_true] using hi, ho⟩

/-- A header that is accepted is legal. -/
theorem legal_of_openBlock {b inner : Builder} {header : Text}
    (h : b.openBlock header = .ok inner) : isLegalHeader header = true := by
  by_contra hl
  simp only [isLegalHeader, Selector.isValid, Bool.or_eq_true, not_or, Bool.not_eq_true,
    Option.isNone_eq_false_iff, Option.isSome_iff_exists] at hl
  obtain ⟨⟨hat, pseudo, hu⟩, hp⟩ := hl
  simp [openBlock, hat, hu, hp] at h

/-! ## Runs -/

/-- A run that is accepted goes on behind its first token. -/
theorem exists_feed_of_run {b last : Builder} {token : Token} {tokens : List Token}
    (h : b.run (token :: tokens) = .ok last) :
    ∃ next, b.feed token = .ok next ∧ next.run tokens = .ok last := by
  rw [run_cons] at h
  rcases hf : b.feed token with e | next
  · rw [hf] at h
    cases h
  · rw [hf] at h
    exact ⟨next, rfl, h⟩

/-- What every accepted token keeps is kept by an accepted run. -/
theorem invariant_of_run {P : Builder → Prop}
    (hstep : ∀ b token next, P b → feed b token = .ok next → P next)
    {b last : Builder} {tokens : List Token} (hb : P b) (h : b.run tokens = .ok last) : P last := by
  induction tokens generalizing b with
  | nil =>
    obtain rfl := Except.ok.inj h
    exact hb
  | cons token tokens ih =>
    obtain ⟨next, hf, hr⟩ := exists_feed_of_run h
    exact ih (hstep b token next hb hf) hr

/-- **On laid out legal items the builder is the evaluator**, and its stacks end as they began. -/
theorem run_laid {tokens : List Token} {items : List Item} (h : Laid tokens items) :
    ∀ b : Builder, b.Aligned → Item.areLegal items = true →
      b.run tokens = .ok { b with tree := Item.evalAll b.scope items b.tree } := by
  induction h with
  | nil => intro b _ _; rfl
  | @statement token tokens items hd _ ih =>
    intro b hb hl
    have hf : b.feed token = .ok { b with tree := b.scope.statement token.text b.tree } := by
      rcases hd with hd | hd <;> simp only [feed, hd, statement_eq]
    rw [Item.areLegal, Item.isLegal, Bool.true_and] at hl
    rw [run_cons, hf, Item.evalAll, Item.eval]
    exact ih _ (hb.withTree _) hl
  | @block opening closing inner tokens body items ho _ hc _ ihBody ih =>
    intro b hb hl
    rw [Item.areLegal, Item.isLegal, Bool.and_eq_true, Bool.and_eq_true] at hl
    obtain ⟨⟨hh, hbody⟩, hrest⟩ := hl
    obtain ⟨b', hb', hopen⟩ := openBlock_of_legal hb hh
    have hf : b.feed opening = .ok b' := by simpa only [feed, ho] using hb'
    have hbodyRun := ihBody b' hopen.aligned hbody
    have hclose (t : RuleTree) : feed { b' with tree := t } closing = .ok { b with tree := t } := by
      simpa only [feed, hc] using hopen.close_eq t closing.offset
    rw [run_cons, hf]
    change b'.run (inner ++ closing :: tokens) = _
    rw [run_append, hbodyRun]
    change run _ (closing :: tokens) = _
    rw [run_cons, hclose]
    change run _ tokens = _
    rw [ih _ (hb.withTree _) hrest, Item.evalAll, Item.eval, hopen.scope_eq, hopen.tree_eq]
    rfl

/-- Laid out items that the builder accepts are legal. -/
theorem legal_of_run {tokens : List Token} {items : List Item} (h : Laid tokens items) :
    ∀ b last : Builder, b.Aligned → b.run tokens = .ok last → Item.areLegal items = true := by
  induction h with
  | nil => intro _ _ _ _; rfl
  | @statement token tokens items hd _ ih =>
    intro b last hb hr
    have hf : b.feed token = .ok { b with tree := b.scope.statement token.text b.tree } := by
      rcases hd with hd | hd <;> simp only [feed, hd, statement_eq]
    rw [run_cons, hf] at hr
    rw [Item.areLegal, Item.isLegal, Bool.true_and]
    exact ih _ last (hb.withTree _) hr
  | @block opening closing inner tokens body items ho hinner hc _ ihBody ih =>
    intro b last hb hr
    obtain ⟨b', hopening, hr⟩ := exists_feed_of_run hr
    have hb' : b.openBlock opening.text = .ok b' := by simpa only [feed, ho] using hopening
    have hh := legal_of_openBlock hb'
    obtain ⟨b'', hb'', hopen⟩ := openBlock_of_legal hb hh
    obtain rfl : b'' = b' := Except.ok.inj (hb''.symm.trans hb')
    rw [run_append] at hr
    rcases hbody : b''.run inner with e | after
    · rw [hbody] at hr
      cases hr
    -- the body is legal, so that its run is known and the block is closed after it
    have hlegal := ihBody b'' after hopen.aligned hbody
    have hclose (t : RuleTree) :
        feed { b'' with tree := t } closing = .ok { b with tree := t } := by
      simpa only [feed, hc] using hopen.close_eq t closing.offset
    rw [run_laid hinner b'' hopen.aligned hlegal] at hr
    replace hr : run _ (closing :: tokens) = .ok last := hr
    rw [run_cons, hclose] at hr
    rw [Item.areLegal, Item.isLegal, hh, hlegal]
    exact ih _ last (hb.withTree _) hr

/-- Tokens that lay out legal items between the headers of `depth` blocks that stay open. -/
inductive Spread : Nat → List Token → Prop
  | closed {tokens : List Token} {items : List Item} :
    Laid tokens items → Item.areLegal items = true → Spread 0 tokens
  | within {depth : Nat} {before : List Token} {opening : Token} {inner : List Token}
    {items : List Item} :
    Spread depth before → opening.delimiter = .openBrace → isLegalHeader opening.text = true →
      Laid inner items → Item.areLegal items = true →
      Spread (depth + 1) (before ++ opening :: inner)

theorem Spread.append {depth : Nat} {tokens more : List Token} {items : List Item}
    (h : Spread depth tokens) (hm : Laid more items) (hl : Item.areLegal items = true) :
    Spread depth (tokens ++ more) := by
  cases h with
  | closed ht hi => exact .closed (ht.append hm) (by rw [Item.areLegal_append, hi, hl]; rfl)
  | within hb ho hh hi hli =>
    rw [List.append_assoc, List.cons_append]
    exact .within hb ho hh (hi.append hm) (by rw [Item.areLegal_append, hli, hl]; rfl)

theorem Aligned.close {b next : Builder} (hb : b.Aligned) {offset : Nat}
    (h : b.closeBlock offset = .ok next) :
    next.Aligned ∧ b.blocks.length = next.blocks.length + 1 := by
  unfold closeBlock at h
  rcases hbl : b.blocks with _ | ⟨kind, blocks⟩
  · simp [hbl] at h
  have hact := hb.active_eq
  have hsel := hb.selector_eq
  simp only [hbl, Except.ok.injEq] at h hact
  subst h
  cases kind with
  | properties =>
    have hne := hb.head_active_ne
    exact ⟨⟨by simpa [leave, hne] using hact, by simpa [leave] using hsel⟩, rfl⟩
  | selector => exact ⟨⟨by simp [hact], rfl⟩, rfl⟩
  | atRule => exact ⟨⟨by simp [hact], by simpa [leave] using hsel⟩, rfl⟩

/-- One accepted token more, after tokens that are spread to the depth of the builder. -/
theorem Spread.snoc {b next : Builder} {tokens : List Token} {token : Token}
    (hb : b.Aligned) (h : Spread b.blocks.length tokens) (hf : b.feed token = .ok next) :
    next.Aligned ∧ Spread next.blocks.length (tokens ++ [token]) := by
  rcases hd : token.delimiter with _ | _ | _ | _
  · have hopen : b.openBlock token.text = .ok next := by simpa only [feed, hd] using hf
    have hl := legal_of_openBlock hopen
    obtain ⟨inner, hi, ho⟩ := openBlock_of_legal hb hl
    obtain rfl : inner = next := Except.ok.inj (hi.symm.trans hopen)
    rw [ho.depth_eq]
    exact ⟨ho.aligned, .within h hd hl .nil rfl⟩
  · have hclose : b.closeBlock token.offset = .ok next := by simpa only [feed, hd] using hf
    obtain ⟨ha, hlen⟩ := hb.close hclose
    rw [hlen] at h
    cases h with
    | within hbefore ho hh hi hli =>
      -- the innermost open block and the closing brace are one block of the level above
      have hblock := Laid.block ho hi hd .nil
      rw [List.append_assoc, List.cons_append]
      exact ⟨ha, hbefore.append hblock (by simp [Item.areLegal, Item.isLegal, hh, hli])⟩
  all_goals
    have hs : b.statement token.text = next := by simpa only [feed, hd, Except.ok.injEq] using hf
    rw [statement_eq] at hs
    subst hs
    exact ⟨hb.withTree _, h.append (.statement (by simp [hd]) .nil) rfl⟩

/-- **What the builder accepts is laid out**, up to the blocks that stay open. -/
theorem spread_of_run {tokens : List Token} {b : Builder} (h : run {} tokens = .ok b) :
    b.Aligned ∧ Spread b.blocks.length tokens := by
  induction tokens using List.reverseRecOn generalizing b with
  | nil =>
    obtain rfl : {} = b := Except.ok.inj h
    exact ⟨aligned_init, .closed .nil rfl⟩
  | append_singleton tokens token ih =>
    rw [run_append] at h
    rcases hr : run {} tokens with e | before
    · rw [hr] at h; cases h
    · rw [hr] at h
      obtain ⟨ha, hs⟩ := ih hr
      rcases hf : before.feed token with e | next
      · simp [Except.bind, run_cons, hf] at h
      · obtain rfl : next = b := by simpa [Except.bind, run_cons, hf] using h
        exact hs.snoc ha hf

/-- What the builder accepts, all blocks being closed at the end, lays out legal items, and the
tree is theirs. -/
theorem exists_laid_of_run {tokens : List Token} {b : Builder} (h : run {} tokens = .ok b)
    (hb : b.blocks = []) :
    ∃ items, Laid tokens items ∧ Item.areLegal items = true ∧ evaluate items = b.tree := by
  have hs := (spread_of_run h).2
  rw [hb] at hs
  cases hs with
  | closed hlaid hl =>
    rw [run_laid hlaid {} aligned_init hl] at h
    obtain rfl := Except.ok.inj h
    exact ⟨_, hlaid, hl, rfl⟩

/-- **The builder computes lexical scoping.** It accepts a list of tokens, all blocks being closed
at the end, if and only if the tokens lay out items with legal headers; the tree is then the one
that the evaluator gives, in the same order. -/
theorem run_eq_ok_iff_evaluate (tokens : List Token) (t : RuleTree) :
    (∃ b : Builder, run {} tokens = .ok b ∧ b.blocks = [] ∧ b.tree = t) ↔
      ∃ items, Laid tokens items ∧ Item.areLegal items = true ∧ evaluate items = t := by
  constructor
  · rintro ⟨b, hr, hbl, rfl⟩
    exact exists_laid_of_run hr hbl
  · rintro ⟨items, hlaid, hl, rfl⟩
    exact ⟨_, run_laid hlaid {} aligned_init hl, rfl, rfl⟩

end Builder

end StyleRules.Source
