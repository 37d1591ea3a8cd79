import StyleRules.Proofs.Rule.Facts
import StyleRules.Proofs.Rule.Parsed
import StyleRules.Proofs.Source.Escapes

/-!
# What stands where in a parsed tree

* `IsPlainValue`: the values that a property can have, by their characters;
* `Wording.FactKind`, `Wording.factKind_of_admits`: what the facts of a flattened tree are;
* **`shape_of_parse`**: a parsed tree is not empty and has no empty block at its root; a statement
  stands at the root and is an at-rule; blocks nest at most two deep; and properties have names and
  plain values.
-/

namespace StyleRules

open Source Text

/-- A text that is not empty, holds no colon, starts with no blank, has single spaces for blanks and
none of them before a comma, and hides each of its delimiters behind an odd number of
backslashes. -/
structure IsPlainValue (value : Text) : Prop where
  ne_nil : value ≠ []
  no_colon : ':' ∉ value
  starts : ∀ c ∈ value.head?, isBlank c = false
  blank_eq : ∀ c ∈ value, isBlank c = true → c = ' '
  single : ¬ [' ', ' '] <:+: value
  tight : ¬ [' ', ','] <:+: value
  hidden : ∀ before d after, value = before ++ d :: after → d ∈ ['{', '}', ';'] →
    Odd (backslashes before)

theorem Source.IsDeclared.isPlainValue {key value : Text} (h : IsDeclared key value) :
    IsPlainValue value where
  ne_nil := h.value_ne
  no_colon := h.no_colon
  starts c hc := by
    obtain ⟨rest, rfl⟩ := List.head?_eq_some_iff.mp hc
    exact h.starts
  blank_eq := h.neat.blank_eq
  single hinfix := by
    rw [← hasPair_iff_isInfix, h.neat.single] at hinfix
    cases hinfix
  tight hinfix := by
    rw [← hasPair_iff_isInfix, h.neat.tight] at hinfix
    cases hinfix
  hidden before d after hsplit hd := by
    have hdelimiter : ∃ delimiter, Delimiter.ofChar? d = some delimiter := by
      simp only [List.mem_cons, List.not_mem_nil, or_false] at hd
      rcases hd with rfl | rfl | rfl <;> exact ⟨_, rfl⟩
    obtain ⟨delimiter, hdelimiter⟩ := hdelimiter
    exact odd_backslashes_of_isCutFree (hsplit ▸ h.cutFree) hdelimiter

/-! ## The facts of a flattened tree -/

namespace Wording

variable {w : Wording} {fact : Fact}

/-- What a fact of a flattened tree can be: a statement at the root, a property, or a block that
stands in at most one other. -/
inductive FactKind (w : Wording) : Fact → Prop
  | statement {key : Text} : isAtRule key = true → FactKind w ⟨[key], .absent⟩
  | property {path : List Text} {key value : Text} : w.property key value = true →
      FactKind w ⟨path ++ [key], .leaf value⟩
  | block {path : List Text} : path.length ≤ 2 → FactKind w ⟨path, .node []⟩

theorem factKind_of_isRule {body : RuleTree} (h : w.isRule body = true) {path : List Text}
    (hf : fact ∈ body.factsAt path) : FactKind w fact := by
  obtain ⟨⟨key, value⟩, he, hf⟩ := RuleTree.mem_factsAt.mp hf
  obtain ⟨text, rfl, hp⟩ := isRule_iff.mp h (key, value) he
  obtain rfl := List.mem_singleton.mp hf
  exact .property hp

theorem factKind_of_isGroup {body : RuleTree} (h : w.isGroup body = true) {name : Text}
    (hf : fact ∈ body.factsAt [name]) : FactKind w fact := by
  obtain ⟨⟨key, value⟩, he, hf⟩ := RuleTree.mem_factsAt.mp hf
  have hentry := List.all_eq_true.mp h (key, value) he
  cases value with
  | leaf text =>
    obtain rfl := List.mem_singleton.mp hf
    exact (FactKind.property hentry : FactKind w ⟨[name] ++ [key], .leaf text⟩)
  | node inner =>
    rcases List.mem_cons.mp hf with rfl | hf
    · exact .block (by simp)
    · exact factKind_of_isRule (Bool.and_eq_true_iff.mp hentry).2 hf
  | absent => cases hentry

theorem factKind_of_admits {t : RuleTree} (h : w.admits t = true) (hf : fact ∈ t.facts) :
    FactKind w fact := by
  obtain ⟨⟨key, value⟩, he, hf⟩ := RuleTree.mem_factsAt.mp hf
  have hentry := (admits_iff.mp h (key, value) he).2
  cases value with
  | leaf text =>
    obtain rfl := List.mem_singleton.mp hf
    exact (FactKind.property hentry : FactKind w ⟨[] ++ [key], .leaf text⟩)
  | node body =>
    rcases List.mem_cons.mp hf with rfl | hf
    · exact .block (by simp)
    replace hentry : w.isBlock key body = true := hentry
    rw [Wording.isBlock] at hentry
    split_ifs at hentry <;> obtain ⟨-, hbody⟩ := Bool.and_eq_true_iff.mp hentry
    · exact factKind_of_isGroup hbody hf
    · exact factKind_of_isRule hbody hf
  | absent =>
    obtain rfl := List.mem_singleton.mp hf
    exact .statement (Bool.and_eq_true_iff.mp hentry).1

end Wording

/-! ## Parsed trees -/

/-- **The shape of every parsed tree**, by its facts at all levels. -/
theorem shape_of_parse {text : Text} {t : RuleTree} (h : parse text = .ok (some t)) :
    t ≠ [] ∧ (∀ key, (key, RuleValue.node []) ∉ t) ∧
    (∀ path, (⟨path, .absent⟩ : Fact) ∈ t.facts → ∃ key, path = [key] ∧ isAtRule key = true) ∧
    (∀ path, (⟨path, .node []⟩ : Fact) ∈ t.facts → path.length ≤ 2) ∧
    ∀ path value, (⟨path, .leaf value⟩ : Fact) ∈ t.facts →
      (∃ around key, path = around ++ [key] ∧ key ≠ [] ∧
        ∀ c ∈ key, Selector.isNameChar c = true) ∧ IsPlainValue value := by
  obtain ⟨hne, hadmits, -⟩ := parsed_of_parse h
  refine ⟨hne, fun key hm => ?_, fun path hf => ?_, fun path hf => ?_, fun path value hf => ?_⟩
  · have := (Wording.admits_iff.mp hadmits _ hm).1
    cases this
  · have hkind := Wording.factKind_of_admits hadmits hf
    cases hkind with
    | statement hat => exact ⟨_, rfl, hat⟩
  · have hkind := Wording.factKind_of_admits hadmits hf
    cases hkind with
    | block hlen => exact hlen
  · have hkind := Wording.factKind_of_admits hadmits hf
    cases hkind with
    | property hp =>
      have hd : IsDeclared _ _ := of_decide_eq_true hp
      exact ⟨⟨_, _, rfl, hd.key_ne, hd.key_name⟩, hd.isPlainValue⟩

/-- A statement, and a property with a hidden semicolon in a selector in an at-rule. -/
def sampleShaped : Text :=
  "@import x; @media p \x7b a \x7b k:  b\\;  c :d; \x7d \x7d".toList

theorem shape_of_parse_sampleShaped : ∃ t, parse sampleShaped = .ok (some t) ∧ t ≠ [] ∧
    (∀ path, (⟨path, .absent⟩ : Fact) ∈ t.facts → ∃ key, path = [key] ∧ isAtRule key = true) ∧
    (∀ path, (⟨path, .node []⟩ : Fact) ∈ t.facts → path.length ≤ 2) ∧
    IsPlainValue "b\\; c ".toList := by
  have hparse : parse sampleShaped = .ok (some [("@import x".toList, .absent),
    ("@media p".toList, .node [("a".toList, .node [("k".toList, .leaf "b\\; c ".toList)])])]) := rfl
  obtain ⟨hne, -, habsent, hblocks, hleaves⟩ := shape_of_parse hparse
  refine ⟨_, hparse, hne, habsent, hblocks,
    (hleaves ["@media p".toList, "a".toList, "k".toList] _ ?_).2⟩
  exact .tail _ (.tail _ (.tail _ (.head _)))

end StyleRules
