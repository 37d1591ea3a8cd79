import StyleRules.Proofs.Query.Finding
import StyleRules.Proofs.Source.Braceless

/-!
# Queries are split at their block

Every text but the empty one is a query. Its block, if its braces are those of a single one, is
read as a style, which cannot fail.

* `SingleBlock`: the braces of a text are those of one block that is not empty;
* `splitBlock?_eq_some_iff`, `splitBlock?_eq_none_iff`: the parts of a text are those around and in
  its single block;
* `TextMatcher.ofText?`: what is looked for in the text of a rule, unless it is blank;
* `RuleQuery.parse_of_singleBlock`, `RuleQuery.parse_of_no_block`: the query of a text;
* `Filter.compile_text`, `Filter.compile_text_eq_error_iff`: the filter of the query of a text, and
  when there is none;
* **`RuleQuery.parse_splits`**: the query of a text, its style, and when it has no filter.
-/

namespace StyleRules

open Text Pattern

/-! ## Blocks -/

/-- The braces of a text are those of one block that is not empty. -/
structure SingleBlock (t before inner after : Text) : Prop where
  eq : t = before ++ '{' :: (inner ++ '}' :: after)
  opens : t.count '{' = 1
  closes : t.count '}' = 1
  inner_ne : inner ≠ []

theorem isNoBrace_iff {c : Char} : isNoBrace c = true ↔ c ≠ '{' ∧ c ≠ '}' := by
  simp [isNoBrace]

theorem forall_isNoBrace_iff {t : Text} :
    (∀ c ∈ t, isNoBrace c = true) ↔ '{' ∉ t ∧ '}' ∉ t := by
  simp only [isNoBrace_iff]
  constructor
  · exact fun h => ⟨fun hm => (h _ hm).1 rfl, fun hm => (h _ hm).2 rfl⟩
  · rintro ⟨ho, hc⟩ c hm
    exact ⟨fun heq => ho (heq ▸ hm), fun heq => hc (heq ▸ hm)⟩

variable {t before inner after : Text}

/-- There is a single block if there are no braces before it, in it and after it. -/
theorem singleBlock_iff : SingleBlock t before inner after ↔
    t = before ++ '{' :: (inner ++ '}' :: after) ∧ inner ≠ [] ∧
      (∀ c ∈ before, isNoBrace c = true) ∧ (∀ c ∈ inner, isNoBrace c = true) ∧
      ∀ c ∈ after, isNoBrace c = true := by
  simp only [forall_isNoBrace_iff, ← List.count_eq_zero]
  constructor
  · rintro ⟨rfl, ho, hc, hne⟩
    rw [List.count_append, List.count_cons_self, List.count_append,
      List.count_cons_of_ne (by decide)] at ho
    rw [List.count_append, List.count_cons_of_ne (by decide), List.count_append,
      List.count_cons_self] at hc
    refine ⟨rfl, hne, ?_⟩
    omega
  · rintro ⟨rfl, hne, hbefore, hinner, hafter⟩
    refine ⟨rfl, ?_, ?_, hne⟩
    · simp [hbefore, hinner, hafter]
    · simp [hbefore, hinner, hafter]

theorem splitBlock?_eq_some_iff :
    splitBlock? t = some (before, inner) ↔ ∃ after, SingleBlock t before inner after := by
  constructor
  · intro h
    unfold splitBlock? at h
    split at h
    · rename_i rest hopen
      dsimp only at h
      split at h
      · rename_i after hclose
        split_ifs at h with hcond
        obtain ⟨rfl, rfl⟩ := Prod.mk.inj (Option.some.inj h)
        rw [Bool.and_eq_true, List.all_eq_true] at hcond
        refine ⟨after, singleBlock_iff.mpr ⟨?_, by simpa using hcond.1,
          fun c hc => List.mem_takeWhile_imp hc, fun c hc => List.mem_takeWhile_imp hc, hcond.2⟩⟩
        rw [← hclose, List.takeWhile_append_dropWhile, ← hopen, List.takeWhile_append_dropWhile]
      · cases h
    · cases h
  · rintro ⟨after, h⟩
    obtain ⟨rfl, hne, hbefore, hinner, hafter⟩ := singleBlock_iff.mp h
    exact splitBlock?_eq hbefore hinner hne hafter

theorem splitBlock?_eq_none_iff :
    splitBlock? t = none ↔ ∀ before inner after, ¬ SingleBlock t before inner after := by
  rw [Option.eq_none_iff_forall_ne_some, Prod.forall]
  simp only [ne_eq, splitBlock?_eq_some_iff, not_exists]

/-! ## Queries -/

/-- What is looked for in the text of a rule: the trimmed text, or nothing if it is blank. -/
def TextMatcher.ofText? (t : Text) : Option TextMatcher :=
  if t.all isBlank then none else some (.text t.trim)

namespace RuleQuery

theorem ofParts_eq (t : Text) (style : Option RuleTree) :
    ofParts t style = ⟨TextMatcher.ofText? t, style⟩ := by
  have hblank : t.trim.isEmpty = t.all isBlank := by
    rw [Bool.eq_iff_iff, List.isEmpty_iff, trim_eq_nil_iff, List.all_eq_true]
  simp only [ofParts, TextMatcher.ofText?, hblank]

/-- The block of a query is read as its style. -/
theorem parse_of_singleBlock (h : SingleBlock t before inner after) :
    ∃ style, StyleRules.parse inner = .ok style ∧ (∀ tree ∈ style, tree ≠ [] ∧ tree.isFlat = true) ∧
      parse t = .ok (some ⟨TextMatcher.ofText? before, style⟩) := by
  have hne : t ≠ [] := by simp [h.eq]
  have hinner := (singleBlock_iff.mp h).2.2.2.1
  obtain ⟨ho, hc⟩ := forall_isNoBrace_iff.mp hinner
  obtain ⟨style, hstyle, hflat⟩ := exists_parse_of_no_braces ho hc
  refine ⟨style, hstyle, hflat, ?_⟩
  rw [parse, if_neg (by simpa using hne), splitBlock?_eq_some_iff.mpr ⟨after, h⟩]
  simp only [hstyle, Except.map, ofParts_eq]

/-- Without such a block the whole text is looked for. -/
theorem parse_of_no_block (hne : t ≠ [])
    (h : ∀ before inner after, ¬ SingleBlock t before inner after) :
    parse t = .ok (some ⟨TextMatcher.ofText? t, none⟩) := by
  rw [parse, if_neg (by simpa using hne), splitBlock?_eq_none_iff.mpr h, ofParts_eq]

theorem isEmpty_iff {q : RuleQuery} : q.isEmpty = true ↔ q.text = none ∧ q.style = none := by
  simp [isEmpty]

/-- A query that asks for nothing has nothing to search for. -/
theorem texts_of_isEmpty {q : RuleQuery} (h : q.isEmpty = true) : q.toShape.texts = [] := by
  obtain ⟨htext, hstyle⟩ := isEmpty_iff.mp h
  rw [toShape, htext, hstyle]
  rfl

end RuleQuery

namespace Filter

variable {s : Switches} {q : RuleQuery} {result : Option RuleQuery}

theorem compile_text_of_isEmpty (h : RuleQuery.parse t = .ok result)
    (hq : ∀ q ∈ result, q.isEmpty = true) : compile s (.text t) = .error .emptyQuery := by
  cases result with
  | none => simp [compile, Spec.toShape, Spec.query, h]
  | some q => simp [compile, Spec.toShape, Spec.query, h, hq q rfl]

theorem compile_text (h : RuleQuery.parse t = .ok (some q)) (hq : q.isEmpty = false) :
    compile s (.text t) = if q.toShape.isCompilable s then .ok (shape (q.toShape.compiled s) s)
      else .error .badPattern :=
  compile_of_toShape (by simp [Spec.toShape, Spec.query, h, hq])

/-- A text has no filter if its query asks for nothing, or for what cannot be searched for. -/
theorem compile_text_eq_error_iff (h : RuleQuery.parse t = .ok result) {e : Error} :
    compile s (.text t) = .error e ↔
      (e = .emptyQuery ∧ ∀ q ∈ result, q.text = none ∧ q.style = none) ∨
      (e = .badPattern ∧ s.stringToRegex = true ∧
        ∃ q ∈ result, ∃ text ∈ q.toShape.texts, isSearchable text = false) := by
  simp only [← RuleQuery.isEmpty_iff]
  by_cases hall : ∀ q ∈ result, q.isEmpty = true
  · have hnone : ¬ ∃ q ∈ result, ∃ text ∈ q.toShape.texts, isSearchable text = false := by
      rintro ⟨q, hq, text, htext, -⟩
      rw [RuleQuery.texts_of_isEmpty (hall q hq)] at htext
      exact absurd htext List.not_mem_nil
    rw [compile_text_of_isEmpty h hall]
    constructor
    · rintro ⟨⟩
      exact .inl ⟨rfl, hall⟩
    · rintro (⟨rfl, -⟩ | ⟨-, -, hex⟩)
      · rfl
      · exact absurd hex hnone
  · obtain ⟨q, rfl, hq⟩ : ∃ q, result = some q ∧ q.isEmpty = false := by
      simpa [Option.mem_def] using hall
    have hcompilable : q.toShape.isCompilable s = false ↔
        s.stringToRegex = true ∧ ∃ text ∈ q.toShape.texts, isSearchable text = false := by
      simp [Shape.isCompilable]
    rw [compile_text h hq]
    constructor
    · intro heq
      split_ifs at heq with hc
      obtain rfl := Except.error.inj heq
      rw [Bool.not_eq_true] at hc
      obtain ⟨hs, hex⟩ := hcompilable.mp hc
      exact .inr ⟨rfl, hs, q, rfl, hex⟩
    · rintro (⟨-, hempty⟩ | ⟨rfl, hs, _, ⟨⟩, hex⟩)
      · exact absurd hempty hall
      · rw [hcompilable.mpr ⟨hs, hex⟩]
        rfl

end Filter

namespace RuleQuery

/-- **Every text is read as a query, and split at its single block.** Only the empty text is none.
What stands before the block is looked for in the text of a rule, unless it is blank, and the block
in its style; without such a block the whole text is looked for. A style is flat and not empty. The
query has no filter only if it asks for nothing, or for a text that cannot be searched for. -/
theorem parse_splits (t : Text) :
    (parse t = .ok none ↔ t = []) ∧
    (∀ before inner after, SingleBlock t before inner after →
      ∃ style, StyleRules.parse inner = .ok style ∧
        parse t = .ok (some ⟨TextMatcher.ofText? before, style⟩)) ∧
    (t ≠ [] → (∀ before inner after, ¬ SingleBlock t before inner after) →
      parse t = .ok (some ⟨TextMatcher.ofText? t, none⟩)) ∧
    ∃ result, parse t = .ok result ∧
      (∀ q ∈ result, ∀ style ∈ q.style, style ≠ [] ∧ style.isFlat = true) ∧
      ∀ s e, Filter.compile s (.text t) = .error e ↔
        (e = .emptyQuery ∧ ∀ q ∈ result, q.text = none ∧ q.style = none) ∨
        (e = .badPattern ∧ s.stringToRegex = true ∧
          ∃ q ∈ result, ∃ text ∈ q.toShape.texts, isSearchable text = false) := by
  have hresult : ∃ result, parse t = .ok result ∧ (result = none ↔ t = []) ∧
      ∀ q ∈ result, ∀ style ∈ q.style, style ≠ [] ∧ style.isFlat = true := by
    by_cases hne : t = []
    · subst hne
      exact ⟨none, rfl, by simp, fun q hq => by cases hq⟩
    · by_cases hblock : ∃ before inner after, SingleBlock t before inner after
      · obtain ⟨before, inner, after, h⟩ := hblock
        obtain ⟨style, -, hflat, hparse⟩ := parse_of_singleBlock h
        refine ⟨_, hparse, by simp [hne], ?_⟩
        rintro _ ⟨⟩
        exact hflat
      · simp only [not_exists] at hblock
        refine ⟨_, parse_of_no_block hne hblock, by simp [hne], ?_⟩
        rintro _ ⟨⟩ style ⟨⟩
  obtain ⟨result, hparse, hnone, hflat⟩ := hresult
  refine ⟨by simpa [hparse] using hnone, fun before inner after h => ?_, parse_of_no_block,
    result, hparse, hflat, fun s e => Filter.compile_text_eq_error_iff hparse⟩
  obtain ⟨style, hstyle, -, hquery⟩ := parse_of_singleBlock h
  exact ⟨style, hstyle, hquery⟩

example : parse " .a \x7b w: 1px; /* h: 2px */ @import \\; b: \x7d c".toList =
    .ok (some ⟨some (.text ".a".toList),
      some [("w".toList, .leaf "1px".toList), ("@import \\; b:".toList, .absent)]⟩) := rfl

end RuleQuery

end StyleRules
