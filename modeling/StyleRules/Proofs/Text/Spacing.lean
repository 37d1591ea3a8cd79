import Mathlib.Data.List.TakeWhile
import Mathlib.Tactic.Common
import StyleRules.Selector.Basic

/-!
# Spacing

* `Text.trimRight_append_cons`, `Text.trimLeft_trimRight`: how far trimming goes;
* `Text.collapse_append`: texts are collapsed one by one, unless blanks meet where they join;
* `Text.collapse_lead`: blanks in front of a text become at most one space;
* `Text.collapse_append_congr`, `Text.collapse_blanks`: which blanks stand in a text, and how many
  in a row, is lost;
* `Text.Flush`, `Text.Spaced`: no blanks at the start, or at both ends, and collapsing changes
  nothing;
* **`Selector.spaced_normalize`**: a normalized selector is spaced.
-/

namespace StyleRules.Text

/-! ## The ends of a text -/

/-- Whether `t` ends with a blank. -/
def endsBlank (t : Text) : Bool := startsBlank t.reverse

@[simp] theorem endsBlank_nil : endsBlank [] = false := rfl

@[simp] theorem endsBlank_concat (t : Text) (c : Char) : endsBlank (t ++ [c]) = isBlank c := by
  simp [endsBlank, startsBlank]

theorem startsBlank_append {s : Text} (hs : s ≠ []) (t : Text) :
    startsBlank (s ++ t) = startsBlank s := by
  cases s with
  | nil => exact absurd rfl hs
  | cons c s => rfl

theorem endsBlank_append {t : Text} (ht : t ≠ []) (s : Text) :
    endsBlank (s ++ t) = endsBlank t := by
  unfold endsBlank
  rw [List.reverse_append, startsBlank_append (by simpa using ht)]

theorem endsBlank_cons {t : Text} (ht : t ≠ []) (c : Char) : endsBlank (c :: t) = endsBlank t :=
  endsBlank_append ht [c]

theorem trimLeft_of_not_startsBlank {t : Text} (h : startsBlank t = false) : trimLeft t = t := by
  cases t with
  | nil => rfl
  | cons c t => exact List.dropWhile_cons_of_neg (by simpa [startsBlank] using h)

theorem trimRight_of_not_endsBlank {t : Text} (h : endsBlank t = false) : trimRight t = t := by
  have := trimLeft_of_not_startsBlank (t := t.reverse) h
  rw [trimLeft] at this
  rw [trimRight, this, List.reverse_reverse]

theorem trimLeft_append_of_blank {lead : Text} (h : ∀ c ∈ lead, isBlank c = true) (t : Text) :
    trimLeft (lead ++ t) = trimLeft t :=
  List.dropWhile_append_of_pos h

theorem trimRight_append_of_blank {trail : Text} (h : ∀ c ∈ trail, isBlank c = true) (t : Text) :
    trimRight (t ++ trail) = trimRight t := by
  unfold trimRight
  rw [List.reverse_append, List.dropWhile_append_of_pos (by simpa using h)]

/-- Trimming goes no further than a character that is no blank. -/
theorem trimRight_append_cons {c : Char} (hc : isBlank c = false) (s t : Text) :
    trimRight (s ++ c :: t) = s ++ c :: trimRight t := by
  unfold trimRight
  rw [List.reverse_append, List.reverse_cons, List.append_assoc, List.dropWhile_append]
  split_ifs with h
  · rw [List.isEmpty_iff.mp h, List.singleton_append, List.dropWhile_cons_of_neg (by simp [hc])]
    simp
  · simp

theorem trimRight_isPrefix (t : Text) : t.trimRight <+: t := by
  rw [trimRight, ← List.reverse_suffix, List.reverse_reverse]
  exact List.dropWhile_suffix _

theorem trim_isInfix (t : Text) : t.trim <:+: t :=
  (trimRight_isPrefix t.trimLeft).isInfix.trans (List.dropWhile_suffix _).isInfix

theorem startsBlank_trimLeft (t : Text) : startsBlank t.trimLeft = false := by
  unfold trimLeft
  induction t with
  | nil => rfl
  | cons c t ih =>
    by_cases hc : isBlank c = true
    · rw [List.dropWhile_cons_of_pos hc]
      exact ih
    · rw [List.dropWhile_cons_of_neg hc]
      simpa [startsBlank] using hc

theorem endsBlank_trimRight (t : Text) : endsBlank t.trimRight = false := by
  rw [endsBlank, trimRight, List.reverse_reverse]
  exact startsBlank_trimLeft t.reverse

theorem startsBlank_trimRight {t : Text} (h : startsBlank t = false) :
    startsBlank t.trimRight = false := by
  obtain ⟨after, hafter⟩ := trimRight_isPrefix t
  rcases ht : t.trimRight with _ | ⟨c, rest⟩
  · rfl
  · rw [← hafter, ht] at h
    exact h

theorem startsBlank_trim (t : Text) : startsBlank t.trim = false :=
  startsBlank_trimRight (startsBlank_trimLeft t)

/-- Nothing is left of blanks, and of nothing else. -/
theorem trim_eq_nil_iff {t : Text} : t.trim = [] ↔ ∀ c ∈ t, isBlank c = true := by
  constructor
  · intro h
    have hleft : t.trimLeft = [] := by
      rcases hl : t.trimLeft with _ | ⟨c, rest⟩
      · rfl
      · have hc : isBlank c = false := by
          have hstarts := startsBlank_trimLeft t
          rwa [hl] at hstarts
        rw [trim, hl, ← List.nil_append (c :: rest), trimRight_append_cons hc] at h
        cases h
    exact List.dropWhile_eq_nil_iff.mp hleft
  · intro h
    rw [trim, trimLeft, List.dropWhile_eq_nil_iff.mpr h]
    rfl

/-- The ends of a text may be trimmed in either order. -/
theorem trimLeft_trimRight (t : Text) : t.trimRight.trimLeft = t.trim := by
  induction t with
  | nil => rfl
  | cons c t ih =>
    by_cases hc : isBlank c = true
    · have hdrop (s : Text) : trimLeft (c :: s) = trimLeft s := List.dropWhile_cons_of_pos hc
      rw [trim, hdrop]
      by_cases ht : trimRight t = []
      · -- nothing is left on either side
        have hcons : trimRight (c :: t) = [] := by
          rw [trimRight, List.reverse_eq_nil_iff, List.dropWhile_eq_nil_iff] at ht ⊢
          intro d hd
          rw [List.mem_reverse, List.mem_cons] at hd
          rcases hd with rfl | hd
          · exact hc
          · exact ht d (List.mem_reverse.mpr hd)
        rw [hcons, ← trim, ← ih, ht]
      · have hcons : trimRight (c :: t) = c :: trimRight t := by
          rw [trimRight, List.reverse_eq_nil_iff, ← List.isEmpty_iff] at ht
          rw [trimRight, trimRight, List.reverse_cons, List.dropWhile_append, if_neg ht]
          simp
        rw [hcons, hdrop, ih]
        rfl
    · rw [Bool.not_eq_true] at hc
      have hcons := trimRight_append_cons hc [] t
      rw [List.nil_append, List.nil_append] at hcons
      rw [trim, hcons, trimLeft_of_not_startsBlank (show startsBlank (c :: _) = false from hc),
        trimLeft_of_not_startsBlank (show startsBlank (c :: t) = false from hc), hcons]

/-! ## Collapsing -/

theorem collapse_append {s t : Text} (h : endsBlank s = false ∨ startsBlank t = false) :
    collapse (s ++ t) = collapse s ++ collapse t := by
  induction s with
  | nil => rfl
  | cons c s ih =>
    by_cases hs : s = []
    · subst hs
      have hc : isBlank c = true → startsBlank t = false := fun hc =>
        h.resolve_left (by simp [endsBlank, startsBlank, hc])
      by_cases hb : isBlank c = true
      · simp [collapse, hb, hc hb, show startsBlank [] = false from rfl]
      · simp [collapse, hb]
    · rw [endsBlank_cons hs] at h
      simp only [List.cons_append, collapse, startsBlank_append hs, ih h]
      split_ifs <;> rfl

/-- Blanks in front of a text become at most one space. -/
theorem collapse_lead {lead : Text} (hl : ∀ c ∈ lead, isBlank c = true) (t : Text) :
    collapse (lead ++ t) = collapse t ∨ collapse (lead ++ t) = ' ' :: collapse t := by
  induction lead with
  | nil => exact .inl rfl
  | cons c lead ih =>
    have hrest := fun d hd => hl d (List.mem_cons_of_mem c hd)
    rw [List.cons_append, collapse, if_pos (hl c List.mem_cons_self)]
    cases lead with
    | nil =>
      split_ifs
      · exact .inl rfl
      · exact .inr rfl
    | cons d lead =>
      rw [if_pos (show startsBlank (d :: lead ++ t) = true from hrest d List.mem_cons_self)]
      exact ih hrest

/-- A blank after a blank is no more than that. -/
theorem collapse_concat_of_endsBlank {t : Text} (h : endsBlank t = true) {c : Char}
    (hc : isBlank c = true) : collapse (t ++ [c]) = collapse t := by
  induction t with
  | nil => cases h
  | cons d t ih =>
    by_cases ht : t = []
    · subst ht
      have hd : isBlank d = true := h
      simp [collapse, hd, hc, startsBlank]
    · rw [endsBlank_cons ht] at h
      rw [List.cons_append, collapse, collapse, startsBlank_append ht, ih h]

theorem endsBlank_collapse {t : Text} (h : endsBlank t = true) : endsBlank (collapse t) = true := by
  induction t with
  | nil => cases h
  | cons c t ih =>
    by_cases ht : t = []
    · subst ht
      have hc : isBlank c = true := h
      simp [collapse, hc, startsBlank, endsBlank]
    · rw [endsBlank_cons ht] at h
      have hrest := ih h
      have hne : collapse t ≠ [] := by
        intro hnil
        rw [hnil] at hrest
        cases hrest
      rw [collapse]
      split_ifs
      · exact hrest
      · rw [endsBlank_cons hne, hrest]
      · rw [endsBlank_cons hne, hrest]

theorem startsBlank_collapse (t : Text) : startsBlank (collapse t) = startsBlank t := by
  induction t with
  | nil => rfl
  | cons c t ih =>
    rw [collapse]
    split_ifs with hc hs
    · rw [ih, hs]
      exact hc.symm
    · exact hc.symm
    · rfl

/-- What is left of a text shows whether it starts with a blank, so that nothing else of it matters
to what stands in front. -/
theorem collapse_append_congr {t u : Text} (h : collapse t = collapse u) (s : Text) :
    collapse (s ++ t) = collapse (s ++ u) := by
  induction s with
  | nil => exact h
  | cons c s ih =>
    have hstarts : startsBlank (s ++ t) = startsBlank (s ++ u) := by
      rw [← startsBlank_collapse, ih, startsBlank_collapse]
    rw [List.cons_append, List.cons_append, collapse, collapse, hstarts, ih]

/-- Some blanks are one space, whatever follows. -/
theorem collapse_blanks {lead : Text} (hne : lead ≠ []) (hl : ∀ c ∈ lead, isBlank c = true)
    (t : Text) : collapse (lead ++ t) = collapse (' ' :: t) := by
  induction lead with
  | nil => exact absurd rfl hne
  | cons c lead ih =>
    obtain ⟨hc, hrest⟩ := List.forall_mem_cons.mp hl
    rw [List.cons_append, collapse, if_pos hc]
    cases lead with
    | nil => rw [List.nil_append, collapse, if_pos isBlank_space]
    | cons d lead =>
      rw [if_pos (show startsBlank (d :: lead ++ t) = true from hrest d List.mem_cons_self)]
      exact ih (List.cons_ne_nil d lead) hrest

/-- A space in front may be dropped where both texts start alike. -/
theorem collapse_of_cons_space {t u : Text} (hs : startsBlank t = startsBlank u)
    (h : collapse (' ' :: t) = collapse (' ' :: u)) : collapse t = collapse u := by
  rw [collapse, collapse, if_pos isBlank_space, if_pos isBlank_space, hs] at h
  split_ifs at h
  · exact h
  · exact (List.cons.inj h).2

/-- Collapsing a text whose blanks are spaces drops some of them. -/
theorem collapse_sublist {t : Text} (h : ∀ c ∈ t, isBlank c = true → c = ' ') :
    (collapse t).Sublist t := by
  induction t with
  | nil => exact .slnil
  | cons c t ih =>
    have hrest := ih fun d hd => h d (List.mem_cons_of_mem c hd)
    rw [collapse]
    split_ifs with hc
    · exact hrest.cons c
    · rw [h c List.mem_cons_self hc]
      exact hrest.cons_cons _
    · exact hrest.cons_cons _

/-- Collapsing brings in no characters but spaces. -/
theorem mem_of_mem_collapse {t : Text} {c : Char} (hc : isBlank c = false) (h : c ∈ collapse t) :
    c ∈ t := by
  induction t with
  | nil => exact h
  | cons d t ih =>
    rw [collapse] at h
    split_ifs at h with hd
    · exact List.mem_cons_of_mem d (ih h)
    · rcases List.mem_cons.mp h with rfl | h
      · cases hc
      · exact List.mem_cons_of_mem d (ih h)
    · rcases List.mem_cons.mp h with rfl | h
      · exact List.mem_cons_self
      · exact List.mem_cons_of_mem d (ih h)

/-- No leading blank, and collapsing changes nothing. -/
structure Flush (t : Text) : Prop where
  starts : startsBlank t = false
  collapse_eq : collapse t = t

instance (t : Text) : Decidable (Flush t) :=
  decidable_of_iff (startsBlank t = false ∧ collapse t = t)
    ⟨fun h => ⟨h.1, h.2⟩, fun h => ⟨h.starts, h.collapse_eq⟩⟩

/-- No blanks at the ends, and collapsing changes nothing. -/
structure Spaced (t : Text) : Prop extends Flush t where
  ends : endsBlank t = false

/-! ## Words -/

theorem join_ne_nil {w : Text} (hw : w ≠ []) (separator : Text) (ws : List Text) :
    join separator (w :: ws) ≠ [] := by
  cases ws with
  | nil => simpa using hw
  | cons v ws => simp [join_cons_cons, hw]

theorem words_cons_of_blank {c : Char} (h : isBlank c = true) (t : Text) :
    words (c :: t) = words t := by
  simp [words, List.splitOnP_cons_eq_if_modifyHead, h]

/-- A character before a blank or the end is a word of its own. -/
theorem words_cons_of_boundary {c : Char} (h : isBlank c = false) {t : Text}
    (ht : t = [] ∨ startsBlank t = true) : words (c :: t) = [c] :: words t := by
  cases t with
  | nil => simp [words, List.splitOnP_cons_eq_if_modifyHead, h]
  | cons d t =>
    have hd : isBlank d = true := by simpa [startsBlank] using ht
    simp [words, List.splitOnP_cons_eq_if_modifyHead, h, hd]

/-- A character before another one that is no blank belongs to the word of the latter. -/
theorem words_cons_of_not_blank {c d : Char} (h : isBlank c = false) (hd : isBlank d = false)
    (t : Text) : ∃ w ws, words (d :: t) = w :: ws ∧ words (c :: d :: t) = (c :: w) :: ws := by
  rcases hs : t.splitOnP isBlank with _ | ⟨w, ws⟩
  · exact absurd hs (List.splitOnP_ne_nil _ _)
  · exact ⟨d :: w, ws.filter fun w => !w.isEmpty, by
      simp [words, List.splitOnP_cons_eq_if_modifyHead, h, hd, hs]⟩

/-- A character in front is passed over, is a word of its own or goes to the first word. -/
theorem words_cons_cases (c : Char) (t : Text) :
    (isBlank c = true ∧ words (c :: t) = words t) ∨
      (isBlank c = false ∧ (t = [] ∨ startsBlank t = true) ∧ words (c :: t) = [c] :: words t) ∨
      (isBlank c = false ∧ startsBlank t = false ∧
        ∃ w ws, words t = w :: ws ∧ words (c :: t) = (c :: w) :: ws) := by
  by_cases hc : isBlank c = true
  · exact .inl ⟨hc, words_cons_of_blank hc t⟩
  rw [Bool.not_eq_true] at hc
  by_cases hb : t = [] ∨ startsBlank t = true
  · exact .inr (.inl ⟨hc, hb, words_cons_of_boundary hc hb⟩)
  · rcases t with _ | ⟨d, t⟩
    · exact absurd (.inl rfl) hb
    · have hd : isBlank d = false := by simpa [startsBlank] using hb
      exact .inr (.inr ⟨hc, hd, words_cons_of_not_blank hc hd t⟩)

theorem words_eq_nil_iff {t : Text} : words t = [] ↔ ∀ c ∈ t, isBlank c = true := by
  induction t with
  | nil => simp
  | cons c t ih =>
    obtain ⟨hc, hw⟩ | ⟨hc, -, hw⟩ | ⟨hc, -, w, ws, -, hw⟩ := words_cons_cases c t
    · rw [hw, ih, List.forall_mem_cons]
      exact (and_iff_right hc).symm
    · simp [hw, hc]
    · simp [hw, hc]

theorem isBlank_of_mem_words {t w : Text} (h : w ∈ words t) : ∀ c ∈ w, isBlank c = false := by
  induction t generalizing w with
  | nil => cases h
  | cons c t ih =>
    obtain ⟨-, hw⟩ | ⟨hc, -, hw⟩ | ⟨hc, -, v, ws, hv, hw⟩ := words_cons_cases c t
    · exact ih (hw ▸ h)
    · rw [hw] at h
      rcases List.mem_cons.mp h with rfl | h
      · exact List.forall_mem_singleton.mpr hc
      · exact ih h
    · rw [hv] at ih
      rw [hw] at h
      rcases List.mem_cons.mp h with rfl | h
      · exact List.forall_mem_cons.mpr ⟨hc, ih List.mem_cons_self⟩
      · exact ih (List.mem_cons_of_mem _ h)

end StyleRules.Text

/-! ## Normalized selectors -/

namespace StyleRules.Selector

open Text (isBlank startsBlank endsBlank Spaced words)

theorem normalize_cons_of_blank {c : Char} (h : isBlank c = true) (t : Text) :
    normalize (c :: t) = normalize t := by
  rw [normalize, Text.words_cons_of_blank h]
  rfl

theorem normalize_cons_of_boundary {c : Char} (h : isBlank c = false) {t : Text}
    (ht : t = [] ∨ startsBlank t = true) :
    normalize (c :: t) = if normalize t = [] then [c] else c :: ' ' :: normalize t := by
  rw [normalize, Text.words_cons_of_boundary h ht, normalize]
  rcases hw : words t with _ | ⟨w, ws⟩
  · rfl
  · have hne : w ≠ [] := Text.ne_nil_of_mem_words (hw ▸ List.mem_cons_self)
    rw [if_neg (Text.join_ne_nil hne [' '] ws), Text.join_cons_cons]
    rfl

theorem normalize_cons_of_not_blank {c d : Char} (h : isBlank c = false) (hd : isBlank d = false)
    (t : Text) : normalize (c :: d :: t) = c :: normalize (d :: t) := by
  obtain ⟨w, ws, hw, hw'⟩ := Text.words_cons_of_not_blank h hd t
  rw [normalize, hw', normalize, hw]
  cases ws with
  | nil => rfl
  | cons v ws => rw [Text.join_cons_cons, Text.join_cons_cons]; rfl

/-- **A normalized selector is spaced.** -/
theorem spaced_normalize (t : Text) : Spaced (normalize t) := by
  induction t with
  | nil => exact ⟨⟨rfl, rfl⟩, rfl⟩
  | cons c t ih =>
    by_cases hc : isBlank c = true
    · rw [normalize_cons_of_blank hc]
      exact ih
    rw [Bool.not_eq_true] at hc
    by_cases ht : t = [] ∨ startsBlank t = true
    · rw [normalize_cons_of_boundary hc ht]
      split_ifs with hn
      · exact ⟨⟨hc, by simp [Text.collapse, hc]⟩, by simp [endsBlank, startsBlank, hc]⟩
      · refine ⟨⟨hc, ?_⟩, ?_⟩
        · simp [Text.collapse, hc, ih.starts, ih.collapse_eq]
        · rw [Text.endsBlank_cons (by simp), Text.endsBlank_cons hn]
          exact ih.ends
    · rcases t with _ | ⟨d, t⟩
      · exact absurd (.inl rfl) ht
      have hd : isBlank d = false := by simpa [startsBlank] using ht
      rw [normalize_cons_of_not_blank hc hd]
      refine ⟨⟨hc, ?_⟩, ?_⟩
      · rw [Text.collapse, hc, ih.collapse_eq]
        rfl
      · by_cases hn : normalize (d :: t) = []
        · rw [hn]
          simp [endsBlank, startsBlank, hc]
        · rw [Text.endsBlank_cons hn]
          exact ih.ends

theorem spaced_of_normalize_eq {t : Text} (h : normalize t = t) : Spaced t := h ▸ spaced_normalize t

end StyleRules.Selector
