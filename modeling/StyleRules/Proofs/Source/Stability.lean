import StyleRules.Proofs.Source.Braceless
import StyleRules.Proofs.Source.Comments
import StyleRules.Proofs.Source.Escapes

/-!
# Normal forms of normal forms

In a normal form all blanks are single spaces. It holds no line break, so nothing in it is a line
comment. Passes after the first may still bring together the two characters that start a block
comment, and then its own normal form is a shorter text.

* `HasComment`: a block comment stands in a text;
* `stripBlockComments_eq_iff`: the texts without block comments;
* `stripLineCommentsFrom_of_not_mem`: a text without line breaks has no line comments;
* `normalForm_sublist`, `normalForm_eq_iff`: the texts that are in normal form;
* **`normalForm_normalForm_iff`**: what a normal form looks like, and when it is its own.
-/

namespace StyleRules

namespace Source

open Text (isBlank)

/-! ## Block comments -/

/-- A block comment stands in the text: its start, and behind that its end. -/
def HasComment (t : Text) : Prop :=
  ∃ before inside after, t = before ++ ['/', '*'] ++ inside ++ ['*', '/'] ++ after

theorem hasClose_eq_hasPair (t : Text) : hasClose t = hasPair '*' '/' t := by
  fun_induction hasClose t with
  | case1 => rfl
  | case2 t => rfl
  | case3 c t hne ih =>
    have hstart : (c == '*' && t.head? == some '/') = false := by
      rw [← Bool.not_eq_true, Bool.and_eq_true, beq_iff_eq, beq_iff_eq]
      rintro ⟨rfl, ht⟩
      obtain ⟨t', rfl⟩ := List.head?_eq_some_iff.mp ht
      exact hne t' rfl rfl
    rw [ih, hasPair, hstart, Bool.false_or]

/-- What starts a block comment is one if and only if it is closed further on. -/
theorem hasComment_open {t : Text} : HasComment ('/' :: '*' :: t) ↔ hasClose t = true := by
  rw [hasClose_eq_hasPair, hasPair_iff_isInfix]
  constructor
  · rintro ⟨before, inside, after, h⟩
    match before with
    | [] => exact ⟨inside, after, by simpa using h.symm⟩
    | [c] => simp at h
    | c :: d :: before =>
      have ht : t = before ++ ['/', '*'] ++ inside ++ ['*', '/'] ++ after :=
        (List.cons.inj (List.cons.inj h).2).2
      exact ⟨before ++ ['/', '*'] ++ inside, after, ht.symm⟩
  · rintro ⟨inside, after, rfl⟩
    exact ⟨[], inside, after, by simp⟩

theorem hasComment_cons {c : Char} {t : Text} (h : ¬ (c = '/' ∧ t.head? = some '*')) :
    HasComment (c :: t) ↔ HasComment t := by
  constructor
  · rintro ⟨before, inside, after, heq⟩
    cases before with
    | nil =>
      obtain ⟨rfl, rfl⟩ := List.cons.inj heq
      exact absurd ⟨rfl, rfl⟩ h
    | cons d before => exact ⟨before, inside, after, (List.cons.inj heq).2⟩
  · rintro ⟨before, inside, after, rfl⟩
    exact ⟨c :: before, inside, after, by simp⟩

/-- **A text without block comments is one that loses nothing with them.** -/
theorem stripBlockComments_eq_iff {t : Text} : stripBlockComments t = t ↔ ¬ HasComment t := by
  unfold stripBlockComments
  induction t with
  | nil => simp [stripBlockCommentsFrom, HasComment]
  | cons c t ih =>
    by_cases hstart : c = '/' ∧ t.head? = some '*'
    · obtain ⟨rfl, ht⟩ := hstart
      obtain ⟨t, rfl⟩ := List.head?_eq_some_iff.mp ht
      rw [hasComment_open, stripBlockCommentsFrom]
      split_ifs with hclose
      · -- at least the two characters that start the comment are gone
        have hlength := (stripBlockCommentsFrom_sublist true t).length_le
        have hne : stripBlockCommentsFrom true t ≠ '/' :: '*' :: t := by
          intro heq
          rw [heq, List.length_cons, List.length_cons] at hlength
          omega
        simp [hne, hclose]
      · simp [hclose]
    · rw [hasComment_cons hstart, stripBlockCommentsFrom, List.cons_inj_right, ih]
      rintro t' rfl rfl
      exact hstart ⟨rfl, rfl⟩

instance (t : Text) : Decidable (HasComment t) :=
  decidable_of_iff (stripBlockComments t ≠ t) (by rw [ne_eq, stripBlockComments_eq_iff, not_not])

/-! ## Line comments -/

/-- Without a line break no line comment ends, and those that do not end are kept. -/
theorem stripLineCommentsFrom_of_not_mem {t : Text} (h : '\n' ∉ t) (before : Option Char) :
    stripLineCommentsFrom (.code before) t = t := by
  generalize hplace : LinePlace.code before = place
  fun_induction stripLineCommentsFrom place t generalizing before with
  | case1 => rfl
  | case2 c t ih => cases hplace
  | case3 before' t haddress ih =>
    rw [ih (List.not_mem_of_not_mem_cons (List.not_mem_of_not_mem_cons h)) none rfl]
  | case4 before' t haddress hbreak ih => simp [hbreak] at h
  | case5 before' t haddress hbreak => rfl
  | case6 before' c t hne ih => rw [ih (List.not_mem_of_not_mem_cons h) (some c) rfl]

/-! ## Normal forms -/

theorem neat_normalForm (t : Text) : Neat (normalForm t) := neat_squeeze _

/-- Where blanks are spaces, the normal form is what is left of the text without block comments. -/
theorem normalForm_sublist {t : Text} (h : ∀ c ∈ t, isBlank c = true → c = ' ') :
    (normalForm t).Sublist (stripBlockComments t) := by
  have hblocks : (stripBlockComments t).Sublist t := stripBlockCommentsFrom_sublist false t
  have hlines : (stripLineComments (stripBlockComments t)).Sublist (stripBlockComments t) :=
    stripLineCommentsFrom_sublist _ _
  have hcollapse := Text.collapse_sublist fun c hc => h c ((hlines.trans hblocks).subset hc)
  exact (tightenCommas_sublist _).trans (hcollapse.trans hlines)

/-- A neat text is in normal form if and only if no block comment stands in it. -/
theorem normalForm_eq_iff {t : Text} (h : Neat t) : normalForm t = t ↔ ¬ HasComment t := by
  rw [← stripBlockComments_eq_iff]
  constructor
  · intro heq
    have hsub := normalForm_sublist h.blank_eq
    rw [heq] at hsub
    exact (stripBlockCommentsFrom_sublist false t).antisymm hsub
  · intro hblocks
    have hbreak : '\n' ∉ t := fun hmem => absurd (h.blank_eq '\n' hmem rfl) (by decide)
    have hlines : stripLineComments t = t := stripLineCommentsFrom_of_not_mem hbreak none
    rw [normalForm, hblocks, hlines, h.collapse_eq, h.tighten_eq]

end Source

open Source

/-- **A normal form has single spaces for blanks, none of them before a comma, and is its own normal
form if and only if no block comment stands in it.** It is then read as the text is. -/
theorem normalForm_normalForm_iff (text : Text) :
    (∀ c ∈ normalForm text, Text.isBlank c = true → c = ' ') ∧
    ¬ [' ', ' '] <:+: normalForm text ∧ ¬ [' ', ','] <:+: normalForm text ∧
    (normalForm (normalForm text) = normalForm text ↔ ¬ HasComment (normalForm text)) ∧
    (¬ HasComment (normalForm text) → parse (normalForm text) = parse text) := by
  have hneat := neat_normalForm text
  have hstable := normalForm_eq_iff hneat
  refine ⟨hneat.blank_eq, ?_, ?_, hstable, fun h => parse_eq_of_normalForm_eq (hstable.mpr h)⟩
  · rw [← hasPair_iff_isInfix, hneat.single]
    simp
  · rw [← hasPair_iff_isInfix, hneat.tight]
    simp

/-- Blanks of several kinds, comments of both kinds, and a line comment that nothing ends. -/
def sampleLoose : Text := "a /* b */\t\x7b c: d ,\u00a0 e // f\n; \x7d // g".toList

/-- A line comment between the two characters that start a block comment. -/
def sampleRejoined : Text := "a:////b\n* c */".toList

theorem normalForm_normalForm_iff_sampleLoose :
    ¬ HasComment (normalForm sampleLoose) ∧
    normalForm (normalForm sampleLoose) = normalForm sampleLoose ∧
    parse (normalForm sampleLoose) = parse sampleLoose ∧
    HasComment (normalForm sampleRejoined) ∧
    normalForm (normalForm sampleRejoined) ≠ normalForm sampleRejoined := by
  have hloose : ¬ HasComment (normalForm sampleLoose) := by decide
  have hrejoined : HasComment (normalForm sampleRejoined) := by decide
  obtain ⟨-, -, -, hstable, hparse⟩ := normalForm_normalForm_iff sampleLoose
  obtain ⟨-, -, -, hunstable, -⟩ := normalForm_normalForm_iff sampleRejoined
  exact ⟨hloose, hstable.mpr hloose, hparse hloose, hrejoined,
    fun h => hunstable.mp h hrejoined⟩

end StyleRules
