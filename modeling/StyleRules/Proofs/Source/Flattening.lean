import StyleRules.Proofs.Rule.Equality
import StyleRules.Proofs.Selector.Nesting
import StyleRules.Proofs.Source.Stacks

/-!
# Nested selectors are notation

A selector block in a selector block means the same as one block with the flattened selector. The
two forms are read in scopes that only differ in how the path of headers is cut into segments, and
the outer block of the nested form leaves at most an empty rule that is pruned.

* `RuleTree.Alike`: the same entries, but for empty blocks that only the first tree has;
* `Scope.Alike`: scopes in which every further header has the same flattened selector;
* `evalAll_alike`: items in alike scopes keep trees alike;
* `RuleTree.Alike.eqv_pruneEmpty`: alike trees are equal when they are pruned;
* **`result_nested`**: the nested form and the flat form have the same result.
-/

namespace StyleRules

open Source

/-! ## Trees that differ in empty blocks -/

/-- Trees without double keys that have the same entries, but for empty blocks that only the first
has. -/
structure RuleTree.Alike (t t' : RuleTree) : Prop where
  distinct_left : t.hasDistinctKeys = true
  distinct_right : t'.hasDistinctKeys = true
  get?_eq : ∀ key, Entries.get? t key = Entries.get? t' key ∨
    Entries.get? t key = some (.node []) ∧ Entries.get? t' key = none

namespace RuleTree

variable {t t' : RuleTree}

theorem Alike.refl (h : t.hasDistinctKeys = true) : t.Alike t := ⟨h, h, fun _ => .inl rfl⟩

theorem Alike.insert (h : t.Alike t') (key : Text) {value : RuleValue}
    (hv : value.hasDistinctKeys = true) : Alike (t.insert key value) (t'.insert key value) where
  distinct_left := hasDistinctKeys_insert h.distinct_left hv
  distinct_right := hasDistinctKeys_insert h.distinct_right hv
  get?_eq other := by
    rw [Entries.get?_insert, Entries.get?_insert]
    split_ifs
    · exact .inl rfl
    · exact h.get?_eq other

theorem Alike.node?_eq (h : t.Alike t') (key : Text) :
    (t.node? key).getD [] = (t'.node? key).getD [] := by
  unfold node?
  rcases h.get?_eq key with heq | ⟨hleft, hright⟩
  · rw [heq]
  · rw [hleft, hright]
    rfl

theorem Alike.modifyNode (h : t.Alike t') (key : Text) {change : RuleTree → RuleTree}
    (hc : ∀ u u' : RuleTree, u.Alike u' → Alike (change u) (change u')) :
    Alike (t.modifyNode key change) (t'.modifyNode key change) := by
  rw [RuleTree.modifyNode, RuleTree.modifyNode, ← h.node?_eq key]
  exact h.insert key (hc _ _ (.refl (hasDistinctKeys_node? h.distinct_left key))).distinct_left

theorem get?_pruneEmpty (h : t.hasDistinctKeys = true) {key : Text} {value : RuleValue} :
    Entries.get? t.pruneEmpty key = some value ↔
      Entries.get? t key = some value ∧ value.isEmptyNode = false := by
  have hpruned := (hasDistinctKeys_iff.mp (hasDistinctKeys_pruneEmpty h)).1
  rw [← Entries.mem_iff_get? hpruned, ← Entries.mem_iff_get? (hasDistinctKeys_iff.mp h).1,
    pruneEmpty, List.mem_filter]
  simp

/-- **Alike trees are equal when they are pruned.** -/
theorem Alike.eqv_pruneEmpty (h : t.Alike t') : eqv t.pruneEmpty t'.pruneEmpty = true := by
  refine eqv_of_get?_eq (hasDistinctKeys_pruneEmpty h.distinct_left)
    (hasDistinctKeys_pruneEmpty h.distinct_right) fun key => Option.ext fun value => ?_
  rw [get?_pruneEmpty h.distinct_left, get?_pruneEmpty h.distinct_right]
  rcases h.get?_eq key with heq | ⟨hleft, hright⟩
  · rw [heq]
  · rw [hleft, hright]
    constructor
    · rintro ⟨hvalue, hfull⟩
      obtain rfl := Option.some.inj hvalue
      cases hfull
    · rintro ⟨hvalue, -⟩
      cases hvalue

end RuleTree

namespace Source

/-! ## Alike scopes -/

/-- Scopes that write to the same places, and in which every further path of headers has the same
flattened selector. -/
structure Scope.Alike (s s' : Scope) : Prop where
  group_eq : s.group = s'.group
  names_eq : s.names = s'.names
  target_eq : s.target = s'.target
  combine_eq : ∀ path, Selector.combine (s.headers ++ path) = Selector.combine (s'.headers ++ path)

section Evaluating

variable {s s' : Scope} {t t' : RuleTree}

theorem Scope.Alike.selector_eq (h : s.Alike s') (header : Text) :
    s.selector header = s'.selector header := by
  rw [Scope.selector, Scope.selector, h.combine_eq]

theorem Scope.Alike.enter (h : s.Alike s') (header : Text) :
    (s.enter header).Alike (s'.enter header) := by
  unfold Scope.enter
  split_ifs
  · exact ⟨rfl, h.names_eq, rfl, h.combine_eq⟩
  · refine ⟨h.group_eq, h.names_eq, ?_, fun path => ?_⟩
    · rw [h.group_eq, h.selector_eq]
    · rw [List.append_assoc, List.append_assoc, h.combine_eq]
  · refine ⟨h.group_eq, ?_, h.target_eq, h.combine_eq⟩
    rw [h.names_eq]

theorem modify_alike (target : Target) (h : t.Alike t') {change : RuleTree → RuleTree}
    (hc : ∀ u u' : RuleTree, u.Alike u' → RuleTree.Alike (change u) (change u')) :
    (target.modify change t).Alike (target.modify change t') := by
  rcases target with _ | name | ⟨_ | name, selector⟩
  · exact hc t t' h
  · exact h.modifyNode name hc
  · exact h.modifyNode selector hc
  · exact h.modifyNode name fun _ _ hu => hu.modifyNode selector hc

theorem write_alike (hs : s.Alike s') (h : t.Alike t') (d : Declaration) :
    (s.write d t).Alike (s'.write d t') := by
  unfold Scope.write
  split_ifs
  · exact h
  · rw [← hs.target_eq, ← hs.names_eq]
    exact modify_alike s.target h fun _ _ hu => hu.insert _ rfl

theorem statement_alike (hs : s.Alike s') (h : t.Alike t') (text : Text) :
    (s.statement text t).Alike (s'.statement text t') := by
  unfold Scope.statement
  split_ifs
  · exact h.insert text rfl
  · rcases Declaration.find? text with _ | d
    · exact h
    · exact write_alike hs h d

theorem openBlock_alike (hs : s.Alike s') (h : t.Alike t') (header : Text) :
    (s.openBlock header t).Alike (s'.openBlock header t') := by
  unfold Scope.openBlock
  split_ifs
  · exact h.insert header rfl
  · rw [← hs.group_eq, ← hs.selector_eq]
    exact modify_alike _ h fun _ _ hu => hu.modifyNode _ fun _ _ hv => hv
  · exact write_alike hs h _

end Evaluating

/-- **Items in alike scopes keep trees alike.** -/
theorem evalAll_alike (items : List Item) {s s' : Scope} (hs : s.Alike s') {t t' : RuleTree}
    (h : t.Alike t') : (Item.evalAll s items t).Alike (Item.evalAll s' items t') := by
  match items with
  | [] => exact h
  | .statement text :: items => exact evalAll_alike items hs (statement_alike hs h text)
  | .block header body :: items =>
    have hbody := evalAll_alike body (hs.enter header) (openBlock_alike hs h header)
    exact evalAll_alike items hs hbody

/-! ## Two blocks and one -/

/-- A header that opens a selector block. -/
structure IsSelectorHeader (header : Text) : Prop where
  not_atRule : isAtRule header = false
  unknownPseudo?_eq : Selector.unknownPseudo? header = none

theorem IsSelectorHeader.isValid {header : Text} (h : IsSelectorHeader header) :
    Selector.isValid header = true := by
  rw [Selector.isValid, h.unknownPseudo?_eq]
  rfl

theorem IsSelectorHeader.isLegalHeader {header : Text} (h : IsSelectorHeader header) :
    isLegalHeader header = true := by
  simp [Source.isLegalHeader, h.isValid]

theorem IsSelectorHeader.enter_eq {header : Text} (h : IsSelectorHeader header) (s : Scope) :
    s.enter header = { s with
      headers := s.headers ++ [header]
      target := .rule s.group (s.selector header) } := by
  rw [Scope.enter, if_neg (by simp [h.not_atRule]), if_pos h.isValid]

theorem IsSelectorHeader.openBlock_eq {header : Text} (h : IsSelectorHeader header) (s : Scope)
    (t : RuleTree) : s.openBlock header t =
      (Target.ofGroup s.group).modify (fun body => body.modifyNode (s.selector header) id) t := by
  rw [Scope.openBlock, if_neg (by simp [h.not_atRule]), if_pos h.isValid]

section TwoBlocks

variable {outer inner flat : Text}

theorem evaluate_alike (ho : IsSelectorHeader outer) (hi : IsSelectorHeader inner)
    (hf : IsSelectorHeader flat) (hbo : Selector.IsBalanced outer) (hbi : Selector.IsBalanced inner)
    (hc : Selector.combine [outer, inner] = some flat) (hn : Selector.normalize flat = flat)
    (items : List Item) :
    (evaluate [.block outer [.block inner items]]).Alike (evaluate [.block flat items]) := by
  have hpath := Selector.combine_cons_cons hbo hbi hc hn
  have hselector : (Scope.enter {} outer).selector inner = Scope.selector {} flat := by
    rw [ho.enter_eq, Scope.selector, Scope.selector]
    exact congrArg (·.getD []) (hpath [])
  -- the outer block makes an empty rule
  have houter : RuleTree.Alike (Scope.openBlock {} outer []) [] := by
    rw [ho.openBlock_eq]
    refine ⟨rfl, rfl, fun key => ?_⟩
    show Entries.get? [(_, _)] key = none ∨ Entries.get? [(_, _)] key = _ ∧ _
    rw [Entries.get?_cons]
    split_ifs
    · exact .inr ⟨rfl, rfl⟩
    · exact .inl rfl
  refine evalAll_alike items ?_ ?_
  · rw [hi.enter_eq, hf.enter_eq, hselector, ho.enter_eq]
    exact ⟨rfl, rfl, rfl, hpath⟩
  · rw [hi.openBlock_eq, hf.openBlock_eq, hselector, ho.enter_eq]
    exact houter.modifyNode _ fun _ _ hu => hu

end TwoBlocks

/-! ## Tokens -/

theorem Laid.areLegal {tokens : List Token} {items : List Item} (h : Laid tokens items)
    (hl : ∀ token ∈ tokens, token.delimiter = .openBrace → isLegalHeader token.text = true) :
    Item.areLegal items = true := by
  induction h with
  | nil => rfl
  | statement _ _ ih =>
    rw [Item.areLegal, Item.isLegal, Bool.true_and]
    exact ih (List.forall_mem_cons.mp hl).2
  | block ho _ _ _ ihBody ih =>
    obtain ⟨hopening, htail⟩ := List.forall_mem_cons.mp hl
    obtain ⟨hinner, htail⟩ := List.forall_mem_append.mp htail
    have hrest := ih (List.forall_mem_cons.mp htail).2
    rw [Item.areLegal, Item.isLegal, hopening ho, ihBody hinner, hrest]
    rfl

/-- Tokens that put others into a block with the given header. -/
inductive Encloses (header : Text) (body : List Token) : List Token → Prop
  | block {opening closing : Token} : opening.delimiter = .openBrace → opening.text = header →
      closing.delimiter = .closeBrace → Encloses header body (opening :: (body ++ [closing]))

theorem Encloses.laid {header : Text} {body tokens : List Token} (h : Encloses header body tokens)
    {items : List Item} (hb : Laid body items) : Laid tokens [.block header items] := by
  cases h with
  | block ho htext hc =>
    rw [← htext]
    exact .block ho hb hc .nil

/-- The result of reading tokens at the end of a text of the given size. -/
def result (tokens : List Token) (size : Nat) : Except Error (Option RuleTree) :=
  (Builder.run {} tokens).bind fun b => b.finish size

theorem result_of_laid {tokens : List Token} {items : List Item} (h : Laid tokens items)
    (hl : Item.areLegal items = true) (size : Nat) :
    result tokens size = .ok (if (evaluate items).pruneEmpty.isEmpty then none
      else some (evaluate items).pruneEmpty) := by
  rw [result, Builder.run_laid h {} Builder.aligned_init hl]
  rfl

/-- **A selector block in a selector block has the result of one block with the flattened
selector**, whatever stands in it, up to the order of entries. -/
theorem result_nested {outer inner flat : Text} (ho : IsSelectorHeader outer)
    (hi : IsSelectorHeader inner) (hbo : Selector.IsBalanced outer)
    (hbi : Selector.IsBalanced inner) (hc : Selector.combine [outer, inner] = some flat)
    (hn : Selector.normalize flat = flat) (hf : IsSelectorHeader flat) {body : List Token}
    (hb : Balanced body)
    (hl : ∀ token ∈ body, token.delimiter = .openBrace → isLegalHeader token.text = true)
    {middle nested single : List Token} (hmiddle : Encloses inner body middle)
    (hnested : Encloses outer middle nested) (hsingle : Encloses flat body single)
    (size size' : Nat) :
    ∃ r r', result nested size = .ok r ∧ result single size' = .ok r' ∧
      Option.Rel (fun t t' => RuleTree.eqv t t' = true) r r' := by
  obtain ⟨items, hlaid⟩ := exists_laid_of_balanced hb
  have hlegal := hlaid.areLegal hl
  have halike := evaluate_alike ho hi hf hbo hbi hc hn items
  refine ⟨_, _, result_of_laid (hnested.laid (hmiddle.laid hlaid)) ?_ size,
    result_of_laid (hsingle.laid hlaid) ?_ size', ?_⟩
  · simp [Item.areLegal, Item.isLegal, ho.isLegalHeader, hi.isLegalHeader, hlegal]
  · simp [Item.areLegal, Item.isLegal, hf.isLegalHeader, hlegal]
  · have heqv := halike.eqv_pruneEmpty
    generalize (evaluate [.block outer [.block inner items]]).pruneEmpty = t at heqv ⊢
    generalize (evaluate [.block flat items]).pruneEmpty = t' at heqv ⊢
    -- equal trees are empty together, so that either both have a result or none has
    have hlen : t.length = t'.length := by
      rw [RuleTree.eqv, Bool.and_eq_true, beq_iff_eq] at heqv
      exact heqv.1
    have hempty : t.isEmpty = t'.isEmpty := by
      rw [Bool.eq_iff_iff, List.isEmpty_iff_length_eq_zero, List.isEmpty_iff_length_eq_zero, hlen]
    rw [hempty]
    split_ifs
    · exact .none
    · exact .some heqv

/-- A property, a selector with a property block, and an at-rule with a selector. -/
def sampleContent : List Token :=
  [⟨"top: 1px".toList, .semicolon, 0⟩, ⟨"p &, q".toList, .openBrace, 0⟩,
    ⟨"margin: auto".toList, .openBrace, 0⟩, ⟨"left: 2px".toList, .semicolon, 0⟩,
    ⟨[], .closeBrace, 0⟩, ⟨[], .closeBrace, 0⟩, ⟨"@media print".toList, .openBrace, 0⟩,
    ⟨"top: 3px".toList, .semicolon, 0⟩, ⟨"i".toList, .openBrace, 0⟩,
    ⟨"top: 4px".toList, .semicolon, 0⟩, ⟨[], .closeBrace, 0⟩, ⟨[], .closeBrace, 0⟩]

/-- The block with the given header around tokens. -/
def sampleBlock (header : String) (body : List Token) : List Token :=
  ⟨header.toList, .openBrace, 0⟩ :: (body ++ [⟨[], .closeBrace, 0⟩])

theorem result_nested_sampleContent :
    Selector.combine ["a, b".toList, ":is(&, c) d, a:hover &".toList] =
      some ":is(a, c) d, a:hover a, :is(b, c) d, a:hover b".toList ∧ Balanced sampleContent ∧
    ∃ r r',
      result (sampleBlock "a, b" (sampleBlock ":is(&, c) d, a:hover &" sampleContent)) 0 = .ok r ∧
      result (sampleBlock ":is(a, c) d, a:hover a, :is(b, c) d, a:hover b" sampleContent) 0 =
        .ok r' ∧
      Option.Rel (fun t t' => RuleTree.eqv t t' = true) r r' := by
  have hc : Selector.combine ["a, b".toList, ":is(&, c) d, a:hover &".toList] =
    some ":is(a, c) d, a:hover a, :is(b, c) d, a:hover b".toList := rfl
  have hb : Balanced sampleContent := by decide
  exact ⟨hc, hb, result_nested ⟨by decide, by decide⟩ ⟨by decide, by decide⟩ (by decide) (by decide)
    hc rfl ⟨by decide, by decide⟩ hb (by decide) (.block rfl rfl rfl) (.block rfl rfl rfl)
    (.block rfl rfl rfl) 0 0⟩

end Source

end StyleRules
