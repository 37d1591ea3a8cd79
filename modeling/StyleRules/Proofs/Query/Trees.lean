import StyleRules.Proofs.Query.Finding
import StyleRules.Proofs.Rule.Facts

/-!
# Filters of rule trees

A rule tree is made into a shape directly, or by way of its JSON form. The two shapes are the same,
and so are the filters, which find the tree that they were made of.

* `Shape.forall_texts_ofRuleValue`: the texts of the shape of a tree are its property values, at
  every depth;
* `Shape.accepts_compiled_self`: every value fits its own compiled shape;
* **`Filter.compile_ofTree`**: both ways give the same filter, and it accepts the JSON form of the
  tree.
-/

namespace StyleRules

open Text Pattern

namespace Shape

/-- The texts that a shape searches for are the property values of its tree; the empty one can
always be searched for. -/
theorem forall_texts_ofRuleValue (value : RuleValue) (path : List Text) :
    (∀ text ∈ (ofRuleValue value).texts, isSearchable text = true) ↔
      ∀ place text, (⟨place, .leaf text⟩ : Fact) ∈ value.facts path → isSearchable text = true := by
  induction value using RuleValue.induction generalizing path with
  | leaf text =>
    rw [ofRuleValue, forall_texts_string]
    simp [RuleValue.facts]
  | absent => simp [ofRuleValue, texts, RuleValue.facts]
  | node body ih =>
    have hfacts : ∀ place text, (⟨place, .leaf text⟩ : Fact) ∈ RuleValue.facts path (.node body) ↔
        ∃ entry ∈ body, (⟨place, .leaf text⟩ : Fact) ∈ entry.2.facts (path ++ [entry.1]) := by
      intro place text
      rw [RuleValue.facts, List.mem_cons, RuleTree.mem_factsAt]
      simp
    rw [ofRuleValue, forall_texts_object, ofEntries_eq_map, List.forall_mem_map]
    constructor
    · intro h place text hf
      obtain ⟨entry, he, hf⟩ := (hfacts place text).mp hf
      exact (ih entry he _).mp (h entry he) place text hf
    · intro h entry he
      refine (ih entry he (path ++ [entry.1])).mpr fun place text hf => ?_
      exact h place text ((hfacts place text).mpr ⟨entry, he, hf⟩)

theorem forall_texts_ofTree (t : RuleTree) :
    (∀ text ∈ (ofTree t).texts, isSearchable text = true) ↔
      ∀ path text, (⟨path, .leaf text⟩ : Fact) ∈ t.facts → isSearchable text = true := by
  refine (forall_texts_ofRuleValue (.node t) []).trans ?_
  refine forall₂_congr fun path text => ?_
  rw [RuleValue.facts, List.mem_cons, RuleTree.facts]
  simp

/-- Every value fits its own compiled shape. -/
theorem accepts_compiled_self {v : Value} (h : v.hasDistinctKeys = true) (s : Switches) :
    ((ofValue v).compiled s).accepts s (some v) = true := by
  -- with all switches off nothing is compiled, and every other filter is more relaxed
  refine accepts_compiled_mono (Switches.off_le s) _ ?_
  rw [compiled_of_not rfl]
  exact accepts_ofValue_self h

end Shape

namespace Filter

/-- **The shape of a rule tree is the shape of its JSON form**, part by part and in the same order,
so that both have the same filter under all switches. The filter exists unless strings are searched
for and some property value of the tree, at any depth, cannot be. It accepts the JSON form of the
tree. -/
theorem compile_ofTree {t : RuleTree} (h : t.hasDistinctKeys = true) :
    Shape.ofTree t = Shape.ofValue t.toValue ∧
    ∀ s : Switches,
      compile s (.shape (.ofTree t)) = compile s (.ofValue t.toValue) ∧
      ((∃ f, compile s (.shape (.ofTree t)) = .ok f) ↔ (s.stringToRegex = true →
        ∀ path text, (⟨path, .leaf text⟩ : Fact) ∈ t.facts → isSearchable text = true)) ∧
      ∀ f, compile s (.shape (.ofTree t)) = .ok f → f.accepts t.toValue = true := by
  have hshape := Shape.ofTree_eq t
  have htarget : (Spec.shape (Shape.ofTree t)).toShape = .ok (Shape.ofTree t) := rfl
  refine ⟨hshape, fun s => ⟨?_, ?_, fun f hf => ?_⟩⟩
  · have hspec : Spec.ofValue t.toValue = .shape (Shape.ofValue t.toValue) := rfl
    rw [hspec, hshape]
  · rw [exists_compile_iff_of_toShape htarget, Shape.forall_texts_ofTree]
  · obtain ⟨-, rfl⟩ := (compile_eq_ok_iff_of_toShape htarget).mp hf
    have hkeys : t.toValue.hasDistinctKeys = true :=
      (RuleValue.hasDistinctKeys_toValue (.node t)).trans h
    rw [hshape]
    exact Shape.accepts_compiled_self hkeys s

/-- A tree with a statement, values in a block of a block, an empty value and an empty block. -/
def sampleNested : RuleTree :=
  [("@import a".toList, .absent),
    ("@media p".toList, .node [("q r".toList, .node [("k".toList, .leaf "x  (y)*".toList)]),
      ("s".toList, .node [])]),
    ("u".toList, .leaf []), ("w".toList, .leaf " ".toList)]

theorem compile_ofTree_sampleNested : sampleNested.hasDistinctKeys = true ∧
    ∃ f, compile {} (.shape (.ofTree sampleNested)) = .ok f ∧
      compile {} (.ofValue sampleNested.toValue) = .ok f ∧
      f.accepts sampleNested.toValue = true := by
  have hd : sampleNested.hasDistinctKeys = true := by decide
  obtain ⟨-, hall⟩ := compile_ofTree hd
  obtain ⟨hsame, hiff, haccepts⟩ := hall {}
  have hsearch : ∀ path text, (⟨path, .leaf text⟩ : Fact) ∈ sampleNested.facts →
      isSearchable text = true := by
    intro path text hf
    have hsizes : (sampleNested.facts.all fun fact =>
        decide (utf8Size (fact.value.leaf?.getD []) ≤ 16384)) = true := by decide
    exact isSearchable_of_utf8Size_le (of_decide_eq_true (List.all_eq_true.mp hsizes _ hf))
  obtain ⟨f, hf⟩ := hiff.mpr fun _ => hsearch
  exact ⟨hd, f, hf, hsame ▸ hf, haccepts f hf⟩

theorem not_compile_ofTree_sampleLongValue : sampleLongValue.hasDistinctKeys = true ∧
    ¬ ∃ f, compile {} (.shape (.ofTree sampleLongValue)) = .ok f ∧
      f.accepts sampleLongValue.toValue = true := by
  refine ⟨rfl, ?_⟩
  rintro ⟨f, hf, -⟩
  have htexts := (exists_compile_iff_of_toShape rfl).mp ⟨f, hf⟩ rfl
  have hsearch := (Shape.forall_texts_ofTree sampleLongValue).mp htexts ["b".toList]
    (sampleCrowd 40000) List.mem_cons_self
  rw [isSearchable_sampleCrowd] at hsearch
  cases hsearch

end Filter

end StyleRules
