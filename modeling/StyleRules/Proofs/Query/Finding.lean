import StyleRules.Proofs.Query.Values
import StyleRules.Proofs.Rule.RoundTrip

/-!
# Rules are found by their text

* `splitBlock?_eq`: the parts of a text with a single block;
* `RuleQuery.parse_rule`: the query of a rendered rule is its selector and its properties;
* `Filter.exists_compile_render_iff`: when a rendered rule has a filter;
* **`Filter.acceptsRule_render`**: the filter of a rendered rule accepts the rule, at whatever
  indentation the two were rendered.
-/

namespace StyleRules

open Text Pattern

/-! ## The parts of a rendered rule -/

theorem splitBlock?_eq {before inner after : Text} (hb : ∀ c ∈ before, isNoBrace c = true)
    (hi : ∀ c ∈ inner, isNoBrace c = true) (hne : inner ≠ [])
    (ha : ∀ c ∈ after, isNoBrace c = true) :
    splitBlock? (before ++ '{' :: (inner ++ '}' :: after)) = some (before, inner) := by
  have hopen : isNoBrace '{' = false := by decide
  have hclose : isNoBrace '}' = false := by decide
  have hinner : inner.isEmpty = false := by simpa using hne
  have hafter : after.all isNoBrace = true := List.all_eq_true.mpr ha
  rw [splitBlock?, List.dropWhile_append_of_pos hb, List.takeWhile_append_of_pos hb]
  simp [hopen, hclose, hinner, hafter, List.dropWhile_append_of_pos hi,
    List.takeWhile_append_of_pos hi]

/-- A rendered rule is its selector and a block with its properties. -/
theorem render_rule (indentation : Nat) (key : Text) (body : RuleTree) :
    (RuleTree.segments indentation [(key, .node body)]).flatten =
      (key ++ [' ']) ++ '{' :: (([RuleTree.lineEnd indentation] ++
        body.renderEntries indentation 1) ++ '}' :: [RuleTree.lineEnd indentation]) := by
  have h : (RuleTree.segments indentation [(key, .node body)]).flatten =
      RuleTree.renderEntries indentation 0 [(key, .node body)] :=
    RuleTree.render_eq_renderEntries indentation _
  rw [h]
  simp [RuleTree.renderEntries, RuleTree.renderEntry, RuleTree.margin]

theorem isNoBrace_of_isClean {t : Text} (h : isClean t = true) : ∀ c ∈ t, isNoBrace c = true := by
  intro c hc
  simp only [isClean, Bool.and_eq_true, List.all_eq_true] at h
  have := h.1.1.1.2 c hc
  simp at this
  simp [isNoBrace, this]

theorem isNoBrace_of_isBlank {c : Char} (h : isBlank c = true) : isNoBrace c = true := by
  by_contra hc
  have hbrace : c = '{' ∨ c = '}' := by
    simpa [isNoBrace, imp_iff_not_or] using hc
  rcases hbrace with rfl | rfl <;> exact absurd h (by decide)

section Rule

variable {key : Text} {body : RuleTree} (hk : renderable.selector key = true)
  (hb : renderable.isRule body = true) (hne : body ≠ []) (hd : Entries.Distinct body)

include hk in
theorem isClean_of_selector : isClean key = true := by
  simp only [renderable, Bool.and_eq_true] at hk
  exact hk.1.1

/-- The name and the value of a renderable property. -/
theorem isClean_of_property {name value : Text} (h : renderable.property name value = true) :
    isClean name = true ∧ isClean value = true := by
  simp only [renderable, Bool.and_eq_true] at h
  exact ⟨h.1.1.1.2, h.2⟩

include hb in
theorem isNoBrace_renderEntries (indentation depth : Nat) :
    ∀ c ∈ body.renderEntries indentation depth, isNoBrace c = true := by
  have hend := isBlank_lineEnd indentation
  induction body with
  | nil => exact fun c hc => absurd hc List.not_mem_nil
  | cons entry rest ih =>
    obtain ⟨name, value⟩ := entry
    rw [Wording.isRule_iff] at hb ih
    obtain ⟨⟨text, rfl, hp⟩, hrest⟩ := List.forall_mem_cons.mp hb
    obtain ⟨hname, htext⟩ := isClean_of_property hp
    have hmargin := isBlank_append_margin indentation (fun c hc => absurd hc List.not_mem_nil) depth
    simp only [RuleTree.renderEntries, RuleTree.renderEntry, List.forall_mem_append,
      List.forall_mem_cons]
    refine ⟨⟨⟨⟨?_, isNoBrace_of_isClean hname⟩, rfl, rfl, isNoBrace_of_isClean htext⟩, rfl, ?_⟩,
      ih hrest⟩
    · exact fun c hc => isNoBrace_of_isBlank (hmargin c hc)
    · exact ⟨isNoBrace_of_isBlank (hend _ List.mem_cons_self), by simp⟩

include hb hne hd in
/-- The properties of a rendered rule are read from its block. -/
theorem parse_block (indentation : Nat) :
    parse ([RuleTree.lineEnd indentation] ++ body.renderEntries indentation 1) =
      .ok (some body) := by
  have hleaf := Wording.isRule_iff.mp hb
  have hadmits : readable.admits body = true := by
    refine Wording.admits_iff.mpr fun entry he => ?_
    obtain ⟨value, hvalue, hp⟩ := hleaf entry he
    have hr := renderable_entails_readable.property hp hp
    simp [Wording.inRoot, hvalue, hr, RuleValue.isEmptyNode]
  have hdistinct : body.hasDistinctKeys = true := by
    refine RuleTree.hasDistinctKeys_iff.mpr ⟨hd, fun entry he => ?_⟩
    obtain ⟨value, hvalue, -⟩ := hleaf entry he
    rw [hvalue]
    rfl
  have hquiet : Source.Quiet (body.renderEntries indentation 1 ++ []) := by
    refine quiet_renderEntries body (fun entry he => ?_) 1 ⟨rfl, rfl⟩
    obtain ⟨value, hvalue, hp⟩ := hleaf entry he
    obtain ⟨hname, htext⟩ := isClean_of_property hp
    rw [hvalue]
    exact rendersQuietly_leaf (clean_of_isClean hname).quiet (clean_of_isClean htext).quiet
  rw [List.append_nil] at hquiet
  exact parse_renderEntries_of_readable hne hdistinct hadmits (isBlank_lineEnd indentation)
    (quiet_lineEnd indentation hquiet).strip_eq

include hk in
theorem trim_selector : (key ++ [' ']).trim = key := by
  have hspaced := (clean_of_isClean (isClean_of_selector hk)).legible.spaced
  rw [trim]
  by_cases hempty : key = []
  · subst hempty
    decide
  · have hleft : trimLeft (key ++ [' ']) = key ++ [' '] := by
      refine trimLeft_of_not_startsBlank ?_
      rw [startsBlank_append hempty, hspaced.starts]
    rw [hleft, trimRight_append_of_blank (by simp), trimRight_of_not_endsBlank hspaced.ends]

include hk hb hne hd in
/-- The query of a rendered rule asks for its selector and its properties. -/
theorem RuleQuery.parse_rule (indentation : Nat) :
    RuleQuery.parse (RuleTree.segments indentation [(key, .node body)]).flatten =
      .ok (some ⟨if key.isEmpty then none else some (.text key), some body⟩) := by
  have hselector : ∀ c ∈ key ++ [' '], isNoBrace c = true := by
    intro c hc
    rcases List.mem_append.mp hc with hc | hc
    · exact isNoBrace_of_isClean (isClean_of_selector hk) c hc
    · rw [List.mem_singleton.mp hc]
      rfl
  have hend : ∀ c ∈ [RuleTree.lineEnd indentation], isNoBrace c = true :=
    fun c hc => isNoBrace_of_isBlank (isBlank_lineEnd indentation c hc)
  have hinner : ∀ c ∈ [RuleTree.lineEnd indentation] ++ body.renderEntries indentation 1,
      isNoBrace c = true := by
    intro c hc
    rcases List.mem_append.mp hc with hc | hc
    · exact hend c hc
    · exact isNoBrace_renderEntries hb indentation 1 c hc
  have hsplit := splitBlock?_eq hselector hinner (by simp) hend
  have htext : (RuleTree.segments indentation [(key, .node body)]).flatten.isEmpty = false := by
    rw [render_rule]
    simp
  rw [RuleQuery.parse, htext, if_neg (by simp), render_rule, hsplit]
  simp only [parse_block hb hne hd, Except.map, RuleQuery.ofParts, trim_selector hk]

/-- The shape of a rule: its selector, unless this is empty, and its properties. -/
def ruleShape (key : Text) (body : RuleTree) : Shape :=
  .object ((if key.isEmpty then [] else [(textKey, .literal (.string key))]) ++
    [(styleKey, Shape.ofTree body)])

include hk hb hne hd in
theorem toShape_render (indentation : Nat) :
    (Spec.text (RuleTree.segments indentation [(key, .node body)]).flatten).toShape =
      .ok (ruleShape key body) := by
  have hquery := RuleQuery.parse_rule hk hb hne hd indentation
  simp only [Spec.toShape, Spec.query, hquery, RuleQuery.isEmpty, RuleQuery.toShape, ruleShape]
  cases key.isEmpty <;> simp [TextMatcher.toShape]

include hb in
theorem forall_texts_ruleShape :
    (∀ t ∈ (ruleShape key body).texts, isSearchable t = true) ↔
      isSearchable key = true ∧
        ∀ name value, (name, .leaf value) ∈ body → isSearchable value = true := by
  have hstyle : (∀ t ∈ (Shape.ofTree body).texts, isSearchable t = true) ↔
      ∀ name value, (name, .leaf value) ∈ body → isSearchable value = true := by
    rw [Shape.ofTree, Shape.forall_texts_object, Shape.ofEntries_eq_map, List.forall_mem_map]
    constructor
    · intro h name value hmem
      exact Shape.forall_texts_string.mp (h (name, .leaf value) hmem)
    · intro h entry he
      obtain ⟨name, value⟩ := entry
      obtain ⟨text, rfl, -⟩ := Wording.isRule_iff.mp hb _ he
      exact Shape.forall_texts_string.mpr (h name text he)
  have hempty : key.isEmpty = true → isSearchable key = true := by
    intro h
    rw [List.isEmpty_iff.mp h]
    exact isSearchable_of_utf8Size_le (by decide)
  rw [ruleShape, Shape.forall_texts_object, List.forall_mem_append, List.forall_mem_singleton,
    hstyle]
  split_ifs with h
  · simp [hempty h]
  · rw [List.forall_mem_singleton, Shape.forall_texts_string]

include hb hne in
/-- A style with the properties of a rule fits their shape. -/
theorem accepts_ofTree {style : RuleTree}
    (hstyle : ∀ entry ∈ body, style.get? entry.1 = some entry.2) (s : Switches) :
    ((Shape.ofTree body).compiled s).accepts s (some style.toValue) = true := by
  refine Shape.accepts_compiled_mono (Switches.off_le s) _ ?_
  rw [Shape.compiled_of_not rfl, Shape.ofTree_eq]
  refine Shape.accepts_ofFields ?_ ?_
  · rw [RuleTree.toFields_eq_map]
    simpa using hne
  · rw [RuleTree.toFields_eq_map, RuleTree.toFields_eq_map, List.forall_mem_map]
    intro entry he
    refine ⟨entry.2.toValue, ?_, Shape.accepts_ofValue_self ?_⟩
    · rw [Entries.get?_map, hstyle entry he]
      rfl
    · obtain ⟨value, hvalue, -⟩ := Wording.isRule_iff.mp hb entry he
      rw [hvalue]
      rfl

include hb hne in
theorem accepts_ruleShape {style : RuleTree}
    (hstyle : ∀ entry ∈ body, style.get? entry.1 = some entry.2) {s : Switches}
    (hs : s.stringToRegex = true) {text : Text} (htext : key <:+: text) :
    ((ruleShape key body).compiled s).accepts s
      (some (StoredRule.toValue ⟨text, some style⟩)) = true := by
  rw [ruleShape, Shape.accepts_object_compiled, if_neg (by simp), List.forall_mem_append,
    List.forall_mem_singleton]
  refine ⟨?_, accepts_ofTree hb hne hstyle s⟩
  split_ifs with hempty
  · exact fun entry he => absurd he List.not_mem_nil
  · rw [List.forall_mem_singleton]
    show ((Shape.literal (.string key)).compiled s).accepts s (some (.string text)) = true
    rw [Shape.compiled, if_pos (by simp [hs, hempty]), Shape.accepts_pattern]
    exact ⟨text, rfl, Regex.search_of_isInfix htext⟩

end Rule

/-! ## The filter of a rendered rule -/

namespace Filter

variable {key : Text} {body : RuleTree}

theorem exists_compile_render_iff (hk : renderable.selector key = true)
    (hb : renderable.isRule body = true) (hne : body ≠ []) (hd : Entries.Distinct body)
    {s : Switches} (hs : s.stringToRegex = true) (indentation : Nat) :
    (∃ f, compile s (.text (RuleTree.segments indentation [(key, .node body)]).flatten) = .ok f) ↔
      isSearchable key = true ∧
        ∀ name value, (name, .leaf value) ∈ body → isSearchable value = true := by
  rw [exists_compile_iff_of_toShape (toShape_render hk hb hne hd indentation),
    forall_texts_ruleShape hb]
  exact ⟨fun h => h hs, fun h _ => h⟩

/-- **A rule is found by its own text.** If strings are searched for, the rendering of a rule at any
indentation has a filter as long as its selector and the values of its properties can be searched
for. The filter accepts the rule as it is rendered at any other indentation, with every style that
has its properties. -/
theorem acceptsRule_render (hk : renderable.selector key = true)
    (hb : renderable.isRule body = true) (hne : body ≠ []) (hd : Entries.Distinct body)
    {s : Switches} (hs : s.stringToRegex = true) {style : RuleTree}
    (hstyle : ∀ entry ∈ body, style.get? entry.1 = some entry.2) (n m : Nat) :
    ((∃ f, compile s (.text (RuleTree.segments n [(key, .node body)]).flatten) = .ok f) ↔
      isSearchable key = true ∧
        ∀ name value, (name, .leaf value) ∈ body → isSearchable value = true) ∧
    ∀ f, compile s (.text (RuleTree.segments n [(key, .node body)]).flatten) = .ok f →
      f.acceptsRule ⟨(RuleTree.segments m [(key, .node body)]).flatten, some style⟩ = true := by
  refine ⟨exists_compile_render_iff hk hb hne hd hs n, fun f hf => ?_⟩
  obtain ⟨-, rfl⟩ := (compile_eq_ok_iff_of_toShape (toShape_render hk hb hne hd n)).mp hf
  have hstart : key <:+: (RuleTree.segments m [(key, .node body)]).flatten := by
    rw [render_rule, List.append_assoc]
    exact (List.prefix_append key _).isInfix
  exact accepts_ruleShape hb hne hstyle hs hstart

/-- A rule with two properties. -/
def sampleRule : Text × RuleTree :=
  ("a:hover > b".toList, [("color".toList, .leaf "red".toList),
    ("width".toList, .leaf "calc(1px, 2 / 3)".toList)])

/-- A style with a further property, in another order. -/
def sampleStyle : RuleTree := ("top".toList, .leaf "0".toList) :: sampleRule.2.reverse

theorem acceptsRule_render_sampleRule : renderable.selector sampleRule.1 = true ∧
    renderable.isRule sampleRule.2 = true ∧
    ∃ f, compile {} (.text (RuleTree.segments 2 [(sampleRule.1, .node sampleRule.2)]).flatten) =
      .ok f ∧ f.acceptsRule ⟨(RuleTree.segments 0 [(sampleRule.1, .node sampleRule.2)]).flatten,
        some sampleStyle⟩ = true := by
  have hk : renderable.selector sampleRule.1 = true := by decide +kernel
  have hb : renderable.isRule sampleRule.2 = true := by decide +kernel
  have hd : Entries.Distinct sampleRule.2 := by decide
  have hstyle : ∀ entry ∈ sampleRule.2, sampleStyle.get? entry.1 = some entry.2 := by
    intro entry he
    have hdistinct : Entries.Distinct sampleStyle := by decide
    exact (Entries.mem_iff_get? hdistinct).mp (List.mem_cons_of_mem _ (List.mem_reverse.mpr he))
  have hs : Switches.stringToRegex {} = true := rfl
  obtain ⟨hiff, hall⟩ := acceptsRule_render hk hb (List.cons_ne_nil _ _) hd hs hstyle 2 0
  have hkey : isSearchable sampleRule.1 = true := isSearchable_of_utf8Size_le (by decide)
  have hvalues : ∀ name value, (name, .leaf value) ∈ sampleRule.2 → isSearchable value = true := by
    intro name value hmem
    have hsizes : (sampleRule.2.all fun entry =>
        decide (utf8Size (entry.2.leaf?.getD []) ≤ 16384)) = true := by decide
    exact isSearchable_of_utf8Size_le (of_decide_eq_true (List.all_eq_true.mp hsizes _ hmem))
  obtain ⟨f, hf⟩ := hiff.mpr ⟨hkey, hvalues⟩
  exact ⟨hk, hb, f, hf, hall f hf⟩

/-- A property whose value has many words. -/
def sampleLongValue : RuleTree := [("b".toList, .leaf (sampleCrowd 40000))]

theorem isClean_sampleCrowd (n : Nat) : isClean (sampleCrowd n) = true := by
  have hother : ∀ c, c ≠ 'a' → c ≠ ' ' → c ∉ sampleCrowd n :=
    fun c ha hs hc => (mem_sampleCrowd hc).elim ha hs
  have hnormal : Selector.normalize (sampleCrowd n) = sampleCrowd n := by
    rw [Selector.normalize, words_sampleCrowd]
    rfl
  have hplain : (sampleCrowd n).all (fun c => !(['{', '}', ';', '\\'].contains c)) = true := by
    rw [List.all_eq_true]
    intro c hc
    rcases mem_sampleCrowd hc with rfl | rfl <;> decide
  have hcomma := Source.hasPair_of_not_mem (a := ' ') (hother ',' (by decide) (by decide))
  have hblock := Source.hasPair_of_not_mem (a := '/') (hother '*' (by decide) (by decide))
  have haddress : Source.keepsAddresses none (sampleCrowd n) = true :=
    Source.keepsAddresses_of_not_mem (hother '/' (by decide) (by decide))
  simp only [isClean, hnormal, hplain, hcomma, hblock, haddress, beq_self_eq_true, Bool.not_false,
    Bool.and_self]

theorem isRule_sampleLongValue : renderable.isRule sampleLongValue = true := by
  have hname : isClean "b".toList = true := by decide +kernel
  have hcolon : ':' ∉ sampleCrowd 40000 :=
    fun hc => (mem_sampleCrowd hc).elim (by decide) (by decide)
  have hvalue : sampleCrowd 40000 ≠ [] := by
    rw [sampleCrowd_succ_succ]
    exact List.cons_ne_nil _ _
  refine Wording.isRule_iff.mpr ?_
  rw [sampleLongValue, List.forall_mem_singleton]
  refine ⟨sampleCrowd 40000, rfl, ?_⟩
  simp only [renderable, Bool.and_eq_true, Bool.not_eq_true', List.isEmpty_eq_false_iff]
  refine ⟨⟨⟨⟨⟨by decide, by decide⟩, hname⟩, hvalue⟩, ?_⟩, isClean_sampleCrowd 40000⟩
  simpa using hcolon

theorem not_acceptsRule_render_sampleLongValue : renderable.selector "a".toList = true ∧
    renderable.isRule sampleLongValue = true ∧ sampleLongValue ≠ [] ∧
    Entries.Distinct sampleLongValue ∧
    ¬ ∃ f, compile {} (.text (RuleTree.segments 2 [("a".toList, .node sampleLongValue)]).flatten) =
      .ok f := by
  have hk : renderable.selector "a".toList = true := by decide +kernel
  have hb := isRule_sampleLongValue
  have hne : sampleLongValue ≠ [] := List.cons_ne_nil _ _
  have hd : Entries.Distinct sampleLongValue := List.nodup_singleton _
  refine ⟨hk, hb, hne, hd, ?_⟩
  rw [exists_compile_render_iff hk hb hne hd rfl]
  rintro ⟨-, hvalues⟩
  have hsearch := hvalues "b".toList (sampleCrowd 40000) List.mem_cons_self
  rw [isSearchable_sampleCrowd] at hsearch
  cases hsearch

end Filter

end StyleRules
