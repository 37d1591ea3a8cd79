import StyleRules.Proofs.Rule.Settled

/-!
# Reading back a parsed tree

A tree that was read from a text need not be read back from its rendering: its selectors were
checked one by one before they were flattened, and its texts can end with blanks or hold comments.

* `contained`: the texts of a tree that hold no delimiter that ends a token, and hide none;
* `settled_of_parse`: what is read back is settled;
* **`parse_segments_iff_settled`**: a parsed tree is read back if and only if it is settled,
  provided that its texts are contained and its rendering has no comments;
* `parse_segments_sampleChained`: two accepted pseudo-classes make one that is not.
-/

namespace StyleRules

open Source Text

/-- The texts of a tree that hold no delimiter that ends a token, and hide none behind them. -/
def contained : Wording where
  property _ value := !endsEscaped value
  statement text := !endsEscaped text
  atRule header := isCutFree header
  selector text := isCutFree text

theorem parsed_entails : parsed.Entails contained written where
  property h h' := by simp_all [parsed, contained, written]
  statement _ h h' := by simp_all [parsed, contained, written]
  atRule _ h h' := by simp_all [parsed, contained, written]
  selector h h' := by simp_all [parsed, contained, written]

theorem written_entails : written.Entails settled readable where
  property {key value} h h' := by
    have htoken : tokenText value = value := by simpa [settled] using h'
    have hends := (spaced_tokenText value).ends
    rw [htoken] at hends
    simp_all [written, readable]
  statement _ h _ := h
  atRule {header} _ h h' := by
    obtain ⟨-, hcut⟩ : Flush header ∧ isCutFree header = true := by simpa [written] using h
    have htoken : tokenText header = header := by simpa [settled] using h'
    exact decide_eq_true (legible_of_tokenText_eq htoken hcut)
  selector {text} h h' := by
    obtain ⟨-, hcut⟩ : Flush text ∧ isCutFree text = true := by simpa [written] using h
    obtain ⟨htoken, hvalid, hat⟩ : tokenText text = text ∧ Selector.isValid text = true ∧
      isAtRule text = false := by simpa [settled, and_assoc] using h'
    simp [readable, legible_of_tokenText_eq htoken hcut, hvalid, hat]

/-- A tree that is equal to what is read from its items is settled: the items mention all its
facts. -/
theorem settled_of_parse {text : Text} {t t' : RuleTree} (hp : parsed.admits t = true)
    (hk : t.hasDistinctKeys = true)
    (hlaid : Laid (tokens (normalForm text)) (t.items ++ [.statement []]))
    (h : parse text = .ok (some t')) (he : t'.eqv t = true) : settled.admits t = true := by
  obtain ⟨hl, rfl⟩ := evaluate_of_parse h hlaid
  obtain ⟨-, -, hk'⟩ := parsed_of_parse h
  -- the facts of the tree are among the mentioned ones, and these are not larger
  have hall := factsSize_le_of_subperm (facts_subperm hk hk' he)
  have hlast : Item.allMentions {} [.statement []] = [] := rfl
  rw [Item.allMentions_append, hlast, List.append_nil] at hall
  rw [Item.areLegal_append, Bool.and_eq_true] at hl
  obtain ⟨hle, hsettled⟩ := size_mentions hp hl.1
  exact hsettled (le_antisymm hle hall)

/-- **A parsed tree is read back from its rendering if and only if it is settled**: its texts have
no blanks to lose, and its flattened selectors are accepted again. This is so at every indentation,
provided that no text of the tree holds or hides a delimiter and the rendering has no comments. -/
theorem parse_segments_iff_settled {text : Text} {t : RuleTree} (h : parse text = .ok (some t))
    (hcontained : contained.admits t = true) {indentation : Nat}
    (hc : stripLineComments (stripBlockComments (RuleTree.segments indentation t).flatten) =
      (RuleTree.segments indentation t).flatten) :
    (∃ t', parse (RuleTree.segments indentation t).flatten = .ok (some t') ∧ t'.eqv t = true) ↔
      settled.admits t = true := by
  obtain ⟨hne, hp, hk⟩ := parsed_of_parse h
  have hwritten := parsed_entails.admits hp hcontained
  constructor
  · rintro ⟨t', h', he⟩
    have hcuts := cuts_render indentation (fenced_of_written hwritten)
    rw [RuleTree.render, ← normalForm_of_strip_eq hc] at hcuts
    exact settled_of_parse hp hk (laid_of_cuts_eq hcuts) h' he
  · intro hs
    have hreadable := written_entails.admits hwritten hs
    exact ⟨t, parse_render_of_readable hne hk hreadable hc, RuleValue.eqv_refl (.node t) hk⟩

/-- A selector in a selector, and one in an at-rule. -/
def sampleSource : Text :=
  ("a, b \x7b color: red; c > & \x7b margin: 0 auto; \x7d " ++
    "@media x \x7b i \x7b top: 1px; \x7d \x7d \x7d").toList

/-- What is read from it. -/
def sampleRead : RuleTree :=
  [("a, b".toList, .node [("color".toList, .leaf "red".toList)]),
    ("c > a, c > b".toList, .node [("margin".toList, .leaf "0 auto".toList)]),
    ("@media x".toList, .node [("a i, b i".toList, .node [("top".toList, .leaf "1px".toList)])])]

theorem parse_segments_sampleRead : parse sampleSource = .ok (some sampleRead) ∧
    settled.admits sampleRead = true ∧
    ∃ t', parse (RuleTree.segments 2 sampleRead).flatten = .ok (some t') ∧
      t'.eqv sampleRead = true := by
  have hparse : parse sampleSource = .ok (some sampleRead) := rfl
  have hsettled : settled.admits sampleRead = true := by decide +kernel
  have hcontained : contained.admits sampleRead = true := by decide +kernel
  have hc : stripLineComments (stripBlockComments (RuleTree.segments 2 sampleRead).flatten) =
      (RuleTree.segments 2 sampleRead).flatten := by decide +kernel
  exact ⟨hparse, hsettled, (parse_segments_iff_settled hparse hcontained hc).mpr hsettled⟩

/-- A selector whose flattened form chains two pseudo-classes. -/
def sampleChained : Text := "a:hover \x7b &:focus \x7b color: red; \x7d \x7d".toList

/-- Two accepted pseudo-classes in a row are read as one that is not accepted. -/
theorem parse_segments_sampleChained : ∃ t, parse sampleChained = .ok (some t) ∧
    parse (RuleTree.segments 2 t).flatten =
      .error (.unknownPseudo "a:hover:focus".toList ":hover:focus".toList) := by
  refine ⟨[("a:hover:focus".toList, .node [("color".toList, .leaf "red".toList)])], ?_, ?_⟩
  · rfl
  · rfl

end StyleRules
