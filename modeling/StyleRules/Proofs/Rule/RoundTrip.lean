import StyleRules.Proofs.Rule.Reading
import StyleRules.Proofs.Source.Quiet

/-!
# Rendering and reading

* `isClean`: a text that no pass of the reader disturbs;
* `renderable`, `RuleTree.isRenderable`: the flattened trees of clean texts;
* `quiet_renderEntries`: a rendering of clean texts holds no comment;
* **`parse_render`**: a renderable tree is read back from its rendering, at every indentation.
-/

namespace StyleRules

open Source Text

/-! ## Clean texts -/

/-- Whether no pass of the reader disturbs a text: it is normalized, holds no delimiter and no
backslash, no space before a comma, no start of a block comment, and `//` only in web
addresses. -/
def isClean (t : Text) : Bool :=
  Selector.normalize t == t && t.all (fun c => !(['{', '}', ';', '\\'].contains c)) &&
    !hasPair ' ' ',' t && !hasPair '/' '*' t && keepsAddresses none t

/-- The clean texts, where they are read back. -/
def renderable : Wording where
  property key value := !key.isEmpty && key.all Selector.isNameChar && isClean key &&
    !value.isEmpty && !value.contains ':' && isClean value
  statement text := isClean text
  atRule header := isClean header
  selector text := isClean text && Selector.isValid text && !isAtRule text

/-- Whether a tree is flattened and not empty, and all its texts are clean. -/
def RuleTree.isRenderable (t : RuleTree) : Bool := !t.isEmpty && renderable.admits t

theorem isCutFree_of_all {t : Text}
    (h : t.all (fun c => !(['{', '}', ';', '\\'].contains c)) = true) :
    isCutFree t = true ∧ endsEscaped t = false := by
  have hp : ∀ c ∈ t, c ≠ '\\' ∧ Delimiter.ofChar? c = none := by
    intro c hc
    have := List.all_eq_true.mp h c hc
    simp at this
    simp [Delimiter.ofChar?, this]
  simpa [isCutFree, endsEscaped] using isCutFree_append_of_plain hp []

/-- What a clean text is to the passes of the reader. -/
structure Clean (t : Text) : Prop where
  legible : Legible t
  /-- It hides no delimiter behind it. -/
  closed : endsEscaped t = false
  quiet : Quiet t

theorem clean_of_isClean {t : Text} (h : isClean t = true) : Clean t := by
  simp only [isClean, Bool.and_eq_true, beq_iff_eq, Bool.not_eq_true'] at h
  obtain ⟨⟨⟨⟨hn, hall⟩, hcomma⟩, hblock⟩, haddr⟩ := h
  obtain ⟨hcut, hesc⟩ := isCutFree_of_all hall
  exact ⟨⟨Selector.spaced_of_normalize_eq hn, tightenCommas_of_hasPair hcomma, hcut⟩, hesc,
    hblock, haddr⟩

/-- Clean texts are readable. -/
theorem renderable_entails_readable : renderable.Entails renderable readable where
  property h _ := by
    simp only [renderable, Bool.and_eq_true, Bool.not_eq_true', List.isEmpty_eq_false_iff,
      List.all_eq_true] at h
    obtain ⟨⟨⟨⟨⟨hk, hname⟩, -⟩, hv⟩, hcolon⟩, hclean⟩ := h
    have hc := clean_of_isClean hclean
    have hd : IsDeclared _ _ := ⟨hk, hname, hv, by simpa using hcolon, hc.legible.spaced.starts,
      hc.legible.neat, hc.legible.cutFree⟩
    simp [readable, hd, hc.legible.spaced.ends, hc.closed]
  statement _ h _ := by
    have hc := clean_of_isClean h
    simp [readable, hc.legible, hc.closed]
  atRule _ h _ := decide_eq_true (clean_of_isClean h).legible
  selector h _ := by
    simp only [renderable, Bool.and_eq_true] at h
    have hc := clean_of_isClean h.1.1
    simp only [readable, Bool.and_eq_true, decide_eq_true_eq]
    exact ⟨⟨hc.legible, h.1.2⟩, h.2⟩

/-! ## Quiet renderings -/

theorem quiet_lineEnd (indentation : Nat) {t : Text} (h : Quiet t) :
    Quiet (RuleTree.lineEnd indentation :: t) := by
  unfold RuleTree.lineEnd
  split_ifs <;> exact h.cons (by decide) (by decide)

theorem quiet_margin (indentation depth : Nat) {t : Text} (h : Quiet t) :
    Quiet (RuleTree.margin indentation depth ++ t) := by
  unfold RuleTree.margin
  induction indentation * depth with
  | zero => exact h
  | succ n ih => exact ih.cons (c := ' ') (by decide) (by decide)

/-- An entry whose rendering holds no comment, whatever quiet text follows. -/
def RendersQuietly (indentation : Nat) (key : Text) (value : RuleValue) : Prop :=
  ∀ (depth : Nat) {rest : Text}, Quiet rest →
    Quiet (RuleTree.renderEntry indentation depth key value ++ rest)

section Quiet

variable {indentation : Nat}

theorem rendersQuietly_leaf {key value : Text} (hk : Quiet key) (hv : Quiet value) :
    RendersQuietly indentation key (.leaf value) := by
  intro depth rest hr
  have htail : Quiet (';' :: RuleTree.lineEnd indentation :: rest) :=
    (quiet_lineEnd indentation hr).cons (by decide) (by decide)
  have hvalue : Quiet (' ' :: (value ++ ';' :: RuleTree.lineEnd indentation :: rest)) :=
    (hv.append htail (by simp)).cons (by decide) (by decide)
  have hcolon : Quiet (':' :: ' ' :: (value ++ ';' :: RuleTree.lineEnd indentation :: rest)) :=
    Quiet.append (s := [':']) ⟨rfl, rfl⟩ hvalue (by simp)
  have := quiet_margin indentation depth (hk.append hcolon (by simp))
  simpa [RuleTree.renderEntry] using this

theorem rendersQuietly_absent {key : Text} (hk : Quiet key) :
    RendersQuietly indentation key .absent := by
  intro depth rest hr
  have htail : Quiet (';' :: RuleTree.lineEnd indentation :: rest) :=
    (quiet_lineEnd indentation hr).cons (by decide) (by decide)
  have := quiet_margin indentation depth (hk.append htail (by simp))
  simpa [RuleTree.renderEntry] using this

theorem quiet_renderEntries (t : RuleTree)
    (h : ∀ entry ∈ t, RendersQuietly indentation entry.1 entry.2) (depth : Nat) {rest : Text}
    (hr : Quiet rest) : Quiet (RuleTree.renderEntries indentation depth t ++ rest) := by
  induction t with
  | nil => exact hr
  | cons entry t ih =>
    rw [RuleTree.renderEntries, List.append_assoc]
    exact h entry List.mem_cons_self depth (ih fun e he => h e (List.mem_cons_of_mem _ he))

theorem rendersQuietly_node {key : Text} (hk : Quiet key) {body : RuleTree}
    (hb : ∀ entry ∈ body, RendersQuietly indentation entry.1 entry.2) :
    RendersQuietly indentation key (.node body) := by
  intro depth rest hr
  have hclose : Quiet ('}' :: RuleTree.lineEnd indentation :: rest) :=
    (quiet_lineEnd indentation hr).cons (by decide) (by decide)
  have hbody := quiet_renderEntries body hb (depth + 1) (quiet_margin indentation depth hclose)
  have hopen := (quiet_lineEnd indentation hbody).cons (c := '{') (by decide) (by decide)
  have hspace := hopen.cons (c := ' ') (by decide) (by decide)
  have := quiet_margin indentation depth (hk.append hspace (by simp))
  simpa [RuleTree.renderEntry] using this

/-- A rendering of clean texts holds no comment. -/
theorem quiet_render {t : RuleTree} (ht : renderable.admits t = true) :
    Quiet (t.render indentation) := by
  have hentries : ∀ entry ∈ t, RendersQuietly indentation entry.1 entry.2 := by
    refine Wording.forall_mem_of_admits ?_ ?_ ?_ ?_ ht
    · intro key value h
      simp only [renderable, Bool.and_eq_true] at h
      exact rendersQuietly_leaf (clean_of_isClean h.1.1.1.2).quiet (clean_of_isClean h.2).quiet
    · exact fun key _ h => rendersQuietly_absent (clean_of_isClean h).quiet
    · intro key body hk hb
      simp only [renderable, Bool.and_eq_true] at hk
      exact rendersQuietly_node (clean_of_isClean hk.1.1).quiet hb
    · exact fun key body _ hk hb => rendersQuietly_node (clean_of_isClean hk).quiet hb
  have hnil : Quiet [] := ⟨rfl, rfl⟩
  have := quiet_renderEntries t hentries 0 hnil
  rwa [List.append_nil, ← RuleTree.render_eq_renderEntries] at this

end Quiet

/-! ## The round trip -/

/-- **A renderable tree is read back from its rendering, at every indentation**: the pieces of its
text, joined, are read as the same tree, in the same order at every level. -/
theorem parse_render (t : RuleTree) (indentation : Nat) (hk : t.hasDistinctKeys = true)
    (ht : t.isRenderable = true) :
    parse (RuleTree.segments indentation t).flatten = .ok (some t) := by
  rw [RuleTree.isRenderable, Bool.and_eq_true, Bool.not_eq_true', List.isEmpty_eq_false_iff] at ht
  exact parse_render_of_readable ht.1 hk (renderable_entails_readable.admits ht.2 ht.2)
    (quiet_render ht.2).strip_eq

/-- A tree with a property, a statement, a selector, and an at-rule that holds all it may. -/
def sampleTree : RuleTree :=
  [("width".toList, .leaf "calc(1px, 2 / 3)".toList),
    ("@import url(http://a.b/c)".toList, .absent),
    ("a:hover, b".toList, .node [("color".toList, .leaf ",red".toList)]),
    ("@media (x: 1)".toList, .node [("a".toList, .leaf "b".toList), ([], .node []),
      ("p > q".toList, .node [("-".toList, .leaf "url(//w)".toList)])])]

theorem parse_render_sampleTree : sampleTree.hasDistinctKeys = true ∧
    sampleTree.isRenderable = true ∧
    parse (RuleTree.segments 2 sampleTree).flatten = .ok (some sampleTree) := by
  have hk : sampleTree.hasDistinctKeys = true := by decide +kernel
  have ht : sampleTree.isRenderable = true := by decide +kernel
  exact ⟨hk, ht, parse_render sampleTree 2 hk ht⟩

end StyleRules
