import Mathlib.Data.List.Infix
import StyleRules.Proofs.Source.Scoping

/-!
# The stacks of a builder

* `opens`, `closes`, `Balanced`: tokens that close every block that they open, and no other;
* `exists_laid_of_balanced`: they lay out items;
* `Builder.Stacked`: the stacks of a builder hold one entry for each block of their kind;
* `Builder.Stacked.feed`: one accepted token keeps the stacks in step;
* **`Builder.stacked_of_run`**: so does every accepted run, and balanced tokens leave all stacks as
  they were.
-/

namespace StyleRules.Source

/-! ## Balanced tokens -/

/-- The number of blocks that tokens open. -/
def opens (tokens : List Token) : Nat := tokens.countP (·.delimiter = .openBrace)

/-- The number of blocks that tokens close. -/
def closes (tokens : List Token) : Nat := tokens.countP (·.delimiter = .closeBrace)

/-- Every closing brace closes a block that was opened before it, and no block stays open. -/
structure Balanced (tokens : List Token) : Prop where
  closes_le : ∀ before ∈ tokens.inits, closes before ≤ opens before
  closes_eq : closes tokens = opens tokens

instance (tokens : List Token) : Decidable (Balanced tokens) :=
  decidable_of_iff ((∀ before ∈ tokens.inits, closes before ≤ opens before) ∧
    closes tokens = opens tokens) ⟨fun h => ⟨h.1, h.2⟩, fun h => ⟨h.closes_le, h.closes_eq⟩⟩

@[simp] theorem opens_nil : opens [] = 0 := rfl

@[simp] theorem closes_nil : closes [] = 0 := rfl

theorem opens_cons (token : Token) (tokens : List Token) :
    opens (token :: tokens) = opens tokens + if token.delimiter = .openBrace then 1 else 0 := by
  simp [opens, List.countP_cons]

theorem closes_cons (token : Token) (tokens : List Token) :
    closes (token :: tokens) = closes tokens + if token.delimiter = .closeBrace then 1 else 0 := by
  simp [closes, List.countP_cons]

theorem opens_append (tokens more : List Token) :
    opens (tokens ++ more) = opens tokens + opens more := List.countP_append

theorem closes_append (tokens more : List Token) :
    closes (tokens ++ more) = closes tokens + closes more := List.countP_append

/-- Tokens that lay out items, then close a block that was opened before them, and so on for the
given number of blocks. -/
inductive Closing : Nat → List Token → Prop
  | closed {tokens : List Token} {items : List Item} : Laid tokens items → Closing 0 tokens
  | close {depth : Nat} {inner tokens : List Token} {items : List Item} {closing : Token} :
    Laid inner items → closing.delimiter = .closeBrace → Closing depth tokens →
      Closing (depth + 1) (inner ++ closing :: tokens)

theorem Closing.prepend {depth : Nat} {before tokens : List Token} {items : List Item}
    (hb : Laid before items) (h : Closing depth tokens) : Closing depth (before ++ tokens) := by
  cases h with
  | closed ht => exact .closed (hb.append ht)
  | close hi hc ht =>
    rw [← List.append_assoc]
    exact .close (hb.append hi) hc ht

theorem closing_of_closes {depth : Nat} {tokens : List Token}
    (hle : ∀ before ∈ tokens.inits, closes before ≤ opens before + depth)
    (heq : closes tokens = opens tokens + depth) : Closing depth tokens := by
  induction tokens generalizing depth with
  | nil =>
    obtain rfl : depth = 0 := by simpa using heq.symm
    exact .closed .nil
  | cons token tokens ih =>
    have hstep : ∀ before ∈ tokens.inits,
        closes (token :: before) ≤ opens (token :: before) + depth :=
      fun before hb => hle _ (by simpa using hb)
    simp only [opens_cons, closes_cons] at hstep heq
    rcases hd : token.delimiter with _ | _ | _ | _ <;>
      simp only [hd, reduceCtorEq, if_true, if_false, Nat.add_zero] at hstep heq
    · -- the block that is opened here is the first to be closed
      have hrest : Closing (depth + 1) tokens := by
        refine ih (fun before hb => ?_) (by omega)
        have := hstep before hb
        omega
      cases hrest with
      | close hi hc ht => simpa using ht.prepend (.block hd hi hc .nil)
    · obtain ⟨outer, rfl⟩ : ∃ outer, depth = outer + 1 := by
        have := hstep [] ((List.mem_inits _ _).mpr List.nil_prefix)
        rw [opens_nil, closes_nil] at this
        exact ⟨depth - 1, by omega⟩
      have hrest : Closing outer tokens := by
        refine ih (fun before hb => ?_) (by omega)
        have := hstep before hb
        omega
      exact .close .nil hd hrest
    all_goals
      have hrest : Closing depth tokens := ih hstep heq
      exact hrest.prepend (.statement (by simp [hd]) .nil)

theorem exists_laid_of_balanced {tokens : List Token} (h : Balanced tokens) :
    ∃ items, Laid tokens items := by
  have hc : Closing 0 tokens := closing_of_closes h.closes_le h.closes_eq
  cases hc with
  | closed hlaid => exact ⟨_, hlaid⟩

/-! ## Stacks in step -/

namespace Builder

/-- The stacks of a builder hold one entry for each open block of their kind; below the targets is
the root, and below the groups none. -/
structure Stacked (b : Builder) : Prop extends b.Aligned where
  headers_length : b.headers.length = b.blocks.count .selector
  names_length : b.names.length = b.blocks.count .properties
  targets_length : b.targets.length = b.blocks.count .selector + 1
  groups_length : b.groups.length = b.blocks.count .atRule + 1
  targets_bottom : b.targets.getLast? = some .root
  groups_bottom : b.groups.getLast? = some none

theorem stacked_init : Stacked {} := ⟨aligned_init, rfl, rfl, rfl, rfl, rfl, rfl⟩

/-- What an accepted header can open. -/
theorem openBlock_cases {b next : Builder} {header : Text} (h : b.openBlock header = .ok next) :
    next = b.openAtRule header ∨ b.openSelector header = .ok next ∨
      b.openProperties header = .ok next := by
  unfold openBlock at h
  by_cases hat : isAtRule header = true
  · rw [if_pos hat] at h
    exact .inl (Except.ok.inj h).symm
  rw [if_neg hat] at h
  rcases hu : Selector.unknownPseudo? header with _ | pseudo <;> simp only [hu] at h
  · exact .inr (.inl h)
  · by_cases hp : opensProperties header = true
    · rw [if_pos hp] at h
      exact .inr (.inr h)
    · rw [if_neg hp] at h
      cases h

theorem getLast?_cons_of_some {α : Type} {bottom : α} {stack : List α} (top : α)
    (h : stack.getLast? = some bottom) : (top :: stack).getLast? = some bottom := by
  rw [List.getLast?_cons, h]
  rfl

theorem getLast?_tail {α : Type} {bottom : α} {stack : List α} (h : stack.getLast? = some bottom)
    (hlen : 2 ≤ stack.length) : stack.tail.getLast? = some bottom := by
  match stack with
  | _ :: next :: rest => simpa using h

section Step

variable {b next : Builder}

theorem Stacked.openAtRule (h : b.Stacked) (header : Text) : (b.openAtRule header).Stacked where
  active_eq := by simp [Builder.openAtRule, h.active_eq]
  selector_eq := h.selector_eq
  headers_length := by simpa [Builder.openAtRule] using h.headers_length
  names_length := by simpa [Builder.openAtRule] using h.names_length
  targets_length := by simpa [Builder.openAtRule] using h.targets_length
  groups_length := by simp [Builder.openAtRule, h.groups_length]
  targets_bottom := h.targets_bottom
  groups_bottom := getLast?_cons_of_some _ h.groups_bottom

theorem Stacked.openSelector (h : b.Stacked) {header : Text}
    (ho : b.openSelector header = .ok next) : next.Stacked := by
  unfold Builder.openSelector at ho
  split at ho
  · cases ho
  · rename_i selector hs
    obtain rfl := Except.ok.inj ho
    refine ⟨⟨by simp [h.active_eq], hs.symm⟩, ?_, ?_, ?_, ?_, ?_, h.groups_bottom⟩
    · simp [h.headers_length]
    · simpa using h.names_length
    · simp [h.targets_length]
    · simpa using h.groups_length
    · exact getLast?_cons_of_some _ h.targets_bottom

theorem Stacked.openProperties (h : b.Stacked) {header : Text}
    (ho : b.openProperties header = .ok next) : next.Stacked := by
  unfold Builder.openProperties at ho
  split at ho
  · cases ho
  · obtain rfl := Except.ok.inj ho
    simp only [writeNonEmpty_eq]
    refine ⟨⟨by simp [h.active_eq], h.selector_eq⟩, ?_, ?_, ?_, ?_, h.targets_bottom,
      h.groups_bottom⟩
    · simpa using h.headers_length
    · simp [h.names_length]
    · simpa using h.targets_length
    · simpa using h.groups_length

theorem Stacked.closeBlock (h : b.Stacked) {offset : Nat} (hc : b.closeBlock offset = .ok next) :
    next.Stacked := by
  obtain ⟨haligned, -⟩ := h.toAligned.close hc
  have hheaders := h.headers_length
  have hnames := h.names_length
  have htargets := h.targets_length
  have hgroups := h.groups_length
  unfold Builder.closeBlock at hc
  split at hc
  · cases hc
  · rename_i kind blocks hblocks
    obtain rfl := Except.ok.inj hc
    rw [hblocks] at hheaders hnames htargets hgroups
    -- the popped stack is that of the closed block, the others are as they were
    cases kind <;> simp only [List.count_cons] at hheaders hnames htargets hgroups
    · refine ⟨haligned, ?_, ?_, ?_, ?_, getLast?_tail h.targets_bottom ?_, h.groups_bottom⟩ <;>
        simp [leave] at * <;> omega
    · refine ⟨haligned, ?_, ?_, ?_, ?_, h.targets_bottom, getLast?_tail h.groups_bottom ?_⟩ <;>
        simp [leave] at * <;> omega
    · refine ⟨haligned, ?_, ?_, ?_, ?_, h.targets_bottom, h.groups_bottom⟩ <;>
        simp [leave] at * <;> omega

theorem Stacked.withTree (h : b.Stacked) (t : RuleTree) : Stacked { b with tree := t } :=
  ⟨h.toAligned.withTree t, h.headers_length, h.names_length, h.targets_length, h.groups_length,
    h.targets_bottom, h.groups_bottom⟩

/-- **One accepted token keeps the stacks in step.** -/
theorem Stacked.feed (h : b.Stacked) {token : Token} (hf : b.feed token = .ok next) :
    next.Stacked := by
  unfold Builder.feed at hf
  split at hf
  · rcases openBlock_cases hf with rfl | ho | ho
    · exact h.openAtRule token.text
    · exact h.openSelector ho
    · exact h.openProperties ho
  · exact h.closeBlock hf
  all_goals
    obtain rfl := Except.ok.inj hf
    rw [statement_eq]
    exact h.withTree _

end Step

theorem Stacked.run {b last : Builder} (h : b.Stacked) {tokens : List Token}
    (hr : b.run tokens = .ok last) : last.Stacked :=
  invariant_of_run (fun _ _ _ hb hf => hb.feed hf) h hr

/-- **The stacks of a builder are in step after every accepted run**, and balanced tokens that are
accepted from there leave everything but the tree as it was. -/
theorem stacked_of_run {tokens : List Token} {b : Builder} (h : run {} tokens = .ok b) :
    b.Stacked ∧ ∀ (more : List Token) (last : Builder), Balanced more → b.run more = .ok last →
      last = { b with tree := last.tree } := by
  have hb := stacked_init.run h
  refine ⟨hb, fun more last hmore hr => ?_⟩
  obtain ⟨items, hlaid⟩ := exists_laid_of_balanced hmore
  have hl := legal_of_run hlaid b last hb.toAligned hr
  rw [run_laid hlaid b hb.toAligned hl] at hr
  obtain rfl := Except.ok.inj hr
  rfl

/-- An at-rule, a selector in it and a property block in that, all open. -/
def sampleOpening : List Token :=
  [⟨"@media print".toList, .openBrace, 0⟩, ⟨"a, b".toList, .openBrace, 0⟩,
    ⟨"margin: auto".toList, .openBrace, 0⟩]

/-- A selector with a property, and a statement. -/
def sampleBody : List Token :=
  [⟨"p &".toList, .openBrace, 0⟩, ⟨"top: 1px".toList, .semicolon, 0⟩, ⟨[], .closeBrace, 0⟩,
    ⟨"@import c".toList, .semicolon, 0⟩]

theorem stacked_of_run_sampleOpening : ∃ b last : Builder, run {} sampleOpening = .ok b ∧
    Balanced sampleBody ∧ b.run sampleBody = .ok last ∧ b.Stacked ∧
    last = { b with tree := last.tree } := by
  have hopening : ∃ b, run {} sampleOpening = .ok b := ⟨_, rfl⟩
  obtain ⟨b, hb⟩ := hopening
  have hbody : ∃ last, b.run sampleBody = .ok last := by
    cases hb
    exact ⟨_, rfl⟩
  obtain ⟨last, hlast⟩ := hbody
  have hbalanced : Balanced sampleBody := by decide
  obtain ⟨hstacked, hrest⟩ := stacked_of_run hb
  exact ⟨b, last, hb, hbalanced, hlast, hstacked, hrest sampleBody last hbalanced hlast⟩

end Builder

end StyleRules.Source
