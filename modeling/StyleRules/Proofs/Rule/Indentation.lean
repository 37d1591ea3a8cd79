import StyleRules.Proofs.Rule.Reading
import StyleRules.Proofs.Source.Comments

/-!
# Renderings at different indentations

Indentation is a matter of blanks: a rendering is a row of lines, and every margin stands behind the
end of a line. Collapsed, the renderings of a tree are one text. Only comments can tell them apart,
since a line break ends a comment and a space does not.

* `RuleTree.texts`: the keys and the property values of a tree;
* `RuleTree.not_mem_renderEntries`: the other characters of a rendering are blanks, colons and
  delimiters;
* `RuleTree.collapse_line`: lines that differ in their margin and their end only;
* **`RuleTree.collapse_render`**: renderings of a tree are the same up to blanks;
* **`parse_segments_indentation`**: and are read alike if no text of the tree holds a slash.
-/

namespace StyleRules

open Source Text

mutual

/-- The keys and the property values in a value. -/
def RuleValue.texts : RuleValue → List Text
  | .leaf value => [value]
  | .node body => RuleTree.texts body
  | .absent => []

/-- The keys and the property values of a tree, at every depth. -/
def RuleTree.texts : RuleTree → List Text
  | [] => []
  | (key, value) :: rest => key :: (value.texts ++ RuleTree.texts rest)

end

namespace RuleTree

/-! ## The characters of a rendering -/

section Characters

variable {c : Char} (indentation : Nat)

theorem ne_lineEnd (hc : isBlank c = false) : c ≠ lineEnd indentation := by
  rintro rfl
  rw [isBlank_lineEnd indentation _ List.mem_cons_self] at hc
  cases hc

theorem not_mem_margin (hc : isBlank c = false) (depth : Nat) : c ∉ margin indentation depth := by
  intro h
  rw [List.eq_of_mem_replicate h] at hc
  cases hc

mutual

theorem not_mem_renderEntry (hc : isBlank c = false) (hm : c ∉ [':', ';', '{', '}'])
    (value : RuleValue) {key : Text} (hk : c ∉ key) (hv : ∀ text ∈ value.texts, c ∉ text)
    (depth : Nat) :
    c ∉ renderEntry indentation depth key value := by
  have hend := ne_lineEnd indentation hc
  have hmargin := not_mem_margin indentation hc depth
  have hspace : c ≠ ' ' := by
    rintro rfl
    cases hc
  obtain ⟨hcolon, hsemicolon, hopen, hclose⟩ : c ≠ ':' ∧ c ≠ ';' ∧ c ≠ '{' ∧ c ≠ '}' := by
    simpa using hm
  match value with
  | .leaf text =>
    have ht : c ∉ text := hv text List.mem_cons_self
    simp [renderEntry, hmargin, hk, hcolon, hspace, ht, hsemicolon, hend]
  | .absent => simp [renderEntry, hmargin, hk, hsemicolon, hend]
  | .node body =>
    have hbody := not_mem_renderEntries hc hm body hv (depth + 1)
    simp [renderEntry, hmargin, hk, hspace, hopen, hend, hbody, hclose]

/-- Rendered entries have the characters of their texts, blanks, colons and delimiters. -/
theorem not_mem_renderEntries (hc : isBlank c = false) (hm : c ∉ [':', ';', '{', '}'])
    (t : RuleTree) (ht : ∀ text ∈ t.texts, c ∉ text) (depth : Nat) :
    c ∉ renderEntries indentation depth t := by
  match t with
  | [] => exact List.not_mem_nil
  | (key, value) :: rest =>
    obtain ⟨hk, hrest⟩ := List.forall_mem_cons.mp ht
    obtain ⟨hv, hrest⟩ := List.forall_mem_append.mp hrest
    rw [renderEntries, List.mem_append, not_or]
    exact ⟨not_mem_renderEntry hc hm value hk hv depth,
      not_mem_renderEntries hc hm rest hrest depth⟩

end

end Characters

/-! ## Lines -/

section Lines

variable (n m : Nat)

theorem collapse_lineEnd (indentation : Nat) (rest : Text) :
    collapse (lineEnd indentation :: rest) = collapse (' ' :: rest) :=
  collapse_blanks (List.cons_ne_nil _ []) (isBlank_lineEnd indentation) rest

theorem collapse_margin (indentation depth : Nat) (rest : Text) :
    collapse (' ' :: (margin indentation depth ++ rest)) = collapse (' ' :: rest) := by
  have hblank : ∀ c ∈ [' '] ++ margin indentation depth, isBlank c = true :=
    isBlank_append_margin indentation (by simp) depth
  have hlead := collapse_blanks (by simp) hblank rest
  rwa [List.append_assoc] at hlead

/-- Behind a blank, the margin of a line does not matter, and neither does the kind of its end. -/
theorem collapse_line (text : Text) (depth : Nat) {rest rest' : Text}
    (h : collapse (' ' :: rest) = collapse (' ' :: rest')) :
    collapse (' ' :: (margin n depth ++ (text ++ lineEnd n :: rest))) =
      collapse (' ' :: (margin m depth ++ (text ++ lineEnd m :: rest'))) := by
  have hend : collapse (lineEnd n :: rest) = collapse (lineEnd m :: rest') := by
    rw [collapse_lineEnd, collapse_lineEnd, h]
  rw [collapse_margin, collapse_margin]
  exact collapse_append_congr hend (' ' :: text)

mutual

/-- A rendered entry is a line, or a line with the entries of a block and the line that closes
it. -/
theorem collapse_renderEntry (value : RuleValue) (key : Text) (depth : Nat) {rest rest' : Text}
    (h : collapse (' ' :: rest) = collapse (' ' :: rest')) :
    collapse (' ' :: (renderEntry n depth key value ++ rest)) =
      collapse (' ' :: (renderEntry m depth key value ++ rest')) := by
  match value with
  | .leaf text =>
    have hline := collapse_line n m (key ++ ':' :: ' ' :: text ++ [';']) depth h
    simpa [renderEntry] using hline
  | .absent =>
    have hline := collapse_line n m (key ++ [';']) depth h
    simpa [renderEntry] using hline
  | .node body =>
    have hclose := collapse_line n m ['}'] depth h
    have hbody := collapse_renderEntries body (depth + 1) hclose
    have hopen := collapse_line n m (key ++ [' ', '{']) depth hbody
    simpa [renderEntry] using hopen

theorem collapse_renderEntries (t : RuleTree) (depth : Nat) {rest rest' : Text}
    (h : collapse (' ' :: rest) = collapse (' ' :: rest')) :
    collapse (' ' :: (renderEntries n depth t ++ rest)) =
      collapse (' ' :: (renderEntries m depth t ++ rest')) := by
  match t with
  | [] => exact h
  | (key, value) :: t =>
    rw [renderEntries, renderEntries, List.append_assoc, List.append_assoc]
    exact collapse_renderEntry value key depth (collapse_renderEntries t depth h)

end

/-- There is no margin at the root, so that a rendering starts as its first key does. -/
theorem startsBlank_renderEntries (t : RuleTree) :
    startsBlank (renderEntries n 0 t) = startsBlank (renderEntries m 0 t) := by
  match t with
  | [] => rfl
  | (key, value) :: t =>
    cases key <;> cases value <;> simp [renderEntries, renderEntry, margin, startsBlank]

/-- **Renderings of a tree are the same up to blanks.** -/
theorem collapse_render (t : RuleTree) : collapse (t.render n) = collapse (t.render m) := by
  have hnil : collapse (' ' :: []) = collapse (' ' :: []) := rfl
  have h := collapse_renderEntries n m t 0 hnil
  rw [List.append_nil, List.append_nil] at h
  rw [render_eq_renderEntries, render_eq_renderEntries]
  exact collapse_of_cons_space (startsBlank_renderEntries n m t) h

end Lines

/-- A rendering of texts without slashes holds no comment. -/
theorem normalForm_render {t : RuleTree} (h : ∀ text ∈ t.texts, '/' ∉ text) (indentation : Nat) :
    normalForm (t.render indentation) = squeeze (t.render indentation) := by
  have hslash : '/' ∉ t.render indentation := by
    rw [render_eq_renderEntries]
    exact not_mem_renderEntries indentation (by decide) (by decide) t h 0
  exact normalForm_of_strip_eq (quiet_of_not_mem hslash).strip_eq

end RuleTree

/-- **Indentation never changes what a rendering means.** Whatever its keys and property values are,
as long as none of them holds a slash, the renderings of a tree at two indentations are read as the
same tree, in the same order, or are refused with the same error at the same place. -/
theorem parse_segments_indentation {t : RuleTree} (h : ∀ text ∈ t.texts, '/' ∉ text) (n m : Nat) :
    parse (RuleTree.segments n t).flatten = parse (RuleTree.segments m t).flatten := by
  refine parse_eq_of_normalForm_eq ?_
  have hn := RuleTree.normalForm_render h n
  have hm := RuleTree.normalForm_render h m
  rw [RuleTree.render] at hn hm
  rw [hn, hm, squeeze, squeeze]
  exact congrArg tightenCommas (RuleTree.collapse_render n m t)

/-- A tree of blocks three deep, with blanks, commas, delimiters and backslashes in its texts. -/
def sampleRough : RuleTree :=
  [(" ,a\\".toList, .node [("b\t".toList, .node [("\n,".toList, .node [([], .leaf "\\".toList)])]),
      ("c".toList, .leaf "d; \x7d".toList)]),
    ("\u00a0".toList, .absent), ("e".toList, .leaf " , f\\ ".toList)]

theorem parse_segments_indentation_sampleRough : (∀ text ∈ sampleRough.texts, '/' ∉ text) ∧
    parse (RuleTree.segments 0 sampleRough).flatten =
      parse (RuleTree.segments 4 sampleRough).flatten := by
  have h : ∀ text ∈ sampleRough.texts, '/' ∉ text := by decide
  exact ⟨h, parse_segments_indentation h 0 4⟩

end StyleRules
