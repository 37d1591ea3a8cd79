import StyleRules.Proofs.Rule.RoundTrip
import StyleRules.Proofs.Selector.Runs

/-!
# Flattened selectors as headers

The flattened selector of nested blocks is never checked as a whole, only the header of each block
is. Nesting as a descendant keeps it acceptable all the same.

* `feed_of_isValid`: a valid header opens a selector block, whatever is open around it;
* `parse_rule_of_isValid`: a rule with a valid, clean key is read back from its rendering;
* **`isValid_combine`**: a path of valid segments is flattened to a valid header.
-/

namespace StyleRules

open Source Selector

section Valid

variable {key : Text} (hat : isAtRule key = false) (hv : isValid key = true)

include hat hv

theorem feed_of_isValid (b : Builder) (offset : Nat) :
    ∃ inner, b.feed ⟨key, .openBrace, offset⟩ = .ok inner ∧
      inner.blocks = .selector :: b.blocks := by
  have hu : unknownPseudo? key = none := Option.isNone_iff_eq_none.mp hv
  have hopen : b.feed ⟨key, .openBrace, offset⟩ = b.openSelector key := by
    simp only [Builder.feed, Builder.openBlock, hat, hu]
    rfl
  rw [hopen, Builder.openSelector, Builder.flatten_cons]
  exact ⟨_, rfl, rfl⟩

theorem parse_rule_of_isValid (hclean : isClean key = true) {body : RuleTree} (hne : body ≠ [])
    (hb : renderable.isRule body = true) (hd : Entries.Distinct body) (indentation : Nat) :
    parse (RuleTree.segments indentation [(key, .node body)]).flatten =
      .ok (some [(key, .node body)]) := by
  have hselector : renderable.selector key = true := by simp [renderable, hclean, hv, hat]
  have hadmits : renderable.admits [(key, .node body)] = true := by
    rw [Wording.admits_cons]
    refine ⟨by simpa [RuleValue.isEmptyNode] using hne, ?_, rfl⟩
    simp [Wording.inRoot, Wording.isBlock, hat, hb, hselector]
  have hkeys : RuleTree.hasDistinctKeys [(key, .node body)] = true := by
    refine RuleTree.hasDistinctKeys_iff.mpr ⟨List.nodup_singleton key, ?_⟩
    refine List.forall_mem_singleton.mpr (RuleTree.hasDistinctKeys_iff.mpr ⟨hd, ?_⟩)
    intro entry he
    obtain ⟨value, hvalue, -⟩ := Wording.isRule_iff.mp hb entry he
    rw [hvalue]
    rfl
  exact parse_render_of_readable (List.cons_ne_nil _ _) hkeys
    (renderable_entails_readable.admits hadmits hadmits) (quiet_render hadmits).strip_eq

end Valid

/-- **Nesting as a descendant keeps selectors valid.** A path of one or more segments, each of them
valid and none an at-rule, is flattened to a valid selector if no segment but the first has a
placeholder. Every builder accepts it as the header of a selector block, and a rule with this key
is read back from its rendering if no character of the key means anything else there. -/
theorem isValid_combine {path : List Text} (hpath : path ≠ [])
    (hat : ∀ segment ∈ path, startsWithAt segment = false)
    (hvalid : ∀ segment ∈ path, isValid segment = true)
    (hplaceholder : ∀ segment ∈ path.tail, placeholder ∉ segment) :
    ∃ flat, combine path = some flat ∧ unknownPseudo? flat = none ∧
      (∀ (b : Builder) (offset : Nat), ∃ inner, b.feed ⟨flat, .openBrace, offset⟩ = .ok inner ∧
        inner.blocks = .selector :: b.blocks) ∧
      ∀ (body : RuleTree) (indentation : Nat), isClean flat = true → body ≠ [] →
        renderable.isRule body = true → Entries.Distinct body →
        parse (RuleTree.segments indentation [(flat, .node body)]).flatten =
          .ok (some [(flat, .node body)]) := by
  obtain ⟨first, rest, rfl⟩ := List.exists_cons_of_ne_nil hpath
  obtain ⟨flat, hflat⟩ := Option.isSome_iff_exists.mp (isSome_combine hpath)
  have hstart := startsWithAt_combine hat hplaceholder hflat
  have hheader := isAtRule_of_startsWithAt hstart
  have hv : isValid flat = true := by
    rw [isValid_iff_forall_pseudoRuns hstart]
    intro run hr
    obtain ⟨segment, hs, hr⟩ := mem_pseudoRuns_combine hplaceholder hflat hr
    exact (isValid_iff_forall_pseudoRuns (hat segment hs)).mp (hvalid segment hs) run hr
  exact ⟨flat, hflat, Option.isNone_iff_eq_none.mp hv, feed_of_isValid hheader hv,
    fun body indentation hclean hne hb hd =>
      parse_rule_of_isValid hheader hv hclean hne hb hd indentation⟩

/-- Segments with alternatives, runs in parentheses, and a placeholder in the first one. -/
def sampleDescendants : List Text :=
  ["&:hover,\n ::before".toList, " p:not(:visited, i), q".toList]

theorem isValid_combine_sampleDescendants : ∃ flat, combine sampleDescendants = some flat ∧
    flat = "&:hover p:not(:visited, i), &:hover q, ::before p:not(:visited, i), ::before q".toList ∧
    unknownPseudo? flat = none ∧
    parse (RuleTree.segments 2 [(flat, .node [("c".toList, .leaf "d".toList)])]).flatten =
      .ok (some [(flat, .node [("c".toList, .leaf "d".toList)])]) := by
  have hpath : sampleDescendants ≠ [] := by decide
  obtain ⟨flat, hflat, hvalid, -, hread⟩ := isValid_combine hpath (by decide)
    (by decide +kernel) (by decide)
  have hlist : flat =
      "&:hover p:not(:visited, i), &:hover q, ::before p:not(:visited, i), ::before q".toList :=
    Option.some.inj (hflat.symm.trans (by decide +kernel))
  refine ⟨flat, hflat, hlist, hvalid, hread _ 2 ?_ (by decide) (by decide) (by decide)⟩
  rw [hlist]
  decide +kernel

end StyleRules
