import StyleRules.Proofs.Text.Spacing

/-!
# Respacing

Normalizing a selector changes its blanks and nothing else. What does not see this change is the
same for a text and its normal form, which is how splitting, substitution and nesting are shown to
depend on normal forms alone.

* `Text.words_append_of_blank`: words end at a blank;
* `Text.Respaced`: the same text with fewer or other blanks, but with blanks in the same places;
* `Selector.respaced_normalize`: a text becomes its normal form, except for a leading blank;
* **`Selector.apply_normalize`**: what ignores respacing and leading blanks ignores normalizing.
-/

namespace StyleRules.Text

theorem ne_of_isBlank {c d : Char} (hc : isBlank c = true) (hd : isBlank d = false) : c ≠ d := by
  rintro rfl
  rw [hc] at hd
  cases hd

theorem words_append_of_blank {c : Char} (hc : isBlank c = true) (s t : Text) :
    words (s ++ c :: t) = words s ++ words t := by
  rw [words, List.splitOnP_append_cons s t hc, List.filter_append]
  rfl

/-- The first text becomes the second one when blanks at its end are dropped, and runs of blanks
elsewhere are shortened or replaced by other ones. -/
inductive Respaced : Text → Text → Prop
  | nil : Respaced [] []
  | cons (c : Char) {t u : Text} : Respaced t u → Respaced (c :: t) (c :: u)
  | blank {b c : Char} {t u : Text} : isBlank b = true → isBlank c = true → Respaced t u →
      Respaced (b :: t) (c :: u)
  /-- A blank at the end is dropped. -/
  | trail {b : Char} {t : Text} : isBlank b = true → Respaced t [] → Respaced (b :: t) []
  /-- A blank before what becomes a blank is dropped. -/
  | extra {b c : Char} {t u : Text} : isBlank b = true → isBlank c = true → Respaced t (c :: u) →
      Respaced (b :: t) (c :: u)

namespace Respaced

variable {t u : Text}

theorem of_forall_isBlank (h : ∀ c ∈ t, isBlank c = true) : Respaced t [] := by
  induction t with
  | nil => exact .nil
  | cons c t ih =>
    obtain ⟨hc, ht⟩ := List.forall_mem_cons.mp h
    exact .trail hc (ih ht)

theorem append_left (h : Respaced t u) (s : Text) : Respaced (s ++ t) (s ++ u) := by
  induction s with
  | nil => exact h
  | cons c s ih => exact .cons c ih

/-- The words are the same, whatever stands in front. -/
theorem words_append_eq (h : Respaced t u) (s : Text) : words (s ++ t) = words (s ++ u) := by
  induction h generalizing s with
  | nil => rfl
  | cons c _ ih =>
    have hs := ih (s ++ [c])
    rwa [List.append_assoc, List.append_assoc] at hs
  | blank hb hc _ ih =>
    have hnil := ih []
    rw [words_append_of_blank hb, words_append_of_blank hc]
    exact congrArg (words s ++ ·) hnil
  | @trail b t hb _ ih =>
    have hnil : words t = [] := ih []
    rw [words_append_of_blank hb, hnil, List.append_nil, List.append_nil]
  | extra hb hc _ ih =>
    have hnil := ih []
    rw [List.nil_append, List.nil_append, words_cons_of_blank hc] at hnil
    rw [words_append_of_blank hb, words_append_of_blank hc, hnil]

theorem mem_iff (h : Respaced t u) {e : Char} (he : isBlank e = false) : e ∈ t ↔ e ∈ u := by
  have hne : ∀ {b}, isBlank b = true → e ≠ b := fun hb => (ne_of_isBlank hb he).symm
  induction h with
  | nil => rfl
  | cons c _ ih => simp only [List.mem_cons, ih]
  | blank hb hc _ ih => simp [hne hb, hne hc, ih]
  | trail hb _ ih => simpa [hne hb] using ih
  | extra hb hc _ ih => simpa [hne hb, hne hc] using ih

end Respaced

end StyleRules.Text

namespace StyleRules.Selector

open Text (isBlank startsBlank words Respaced)

theorem normalize_eq_of_respaced {t u : Text} (h : Respaced t u) : normalize t = normalize u :=
  congrArg (Text.join [' ']) (h.words_append_eq [])

theorem isBlank_of_normalize_eq_nil {t : Text} (h : normalize t = []) :
    ∀ c ∈ t, isBlank c = true := by
  rw [← Text.words_eq_nil_iff]
  rcases hw : words t with _ | ⟨w, ws⟩
  · rfl
  · have hne : w ≠ [] := Text.ne_nil_of_mem_words (hw ▸ List.mem_cons_self)
    rw [normalize, hw] at h
    exact absurd h (Text.join_ne_nil hne [' '] ws)

theorem respaced_normalize (t : Text) :
    Respaced t (if startsBlank t then ' ' :: normalize t else normalize t) := by
  induction t with
  | nil => exact .nil
  | cons c t ih =>
    by_cases hc : isBlank c = true
    · rw [if_pos (show startsBlank (c :: t) = true from hc), normalize_cons_of_blank hc]
      split_ifs at ih
      · exact .extra hc Text.isBlank_space ih
      · exact .blank hc Text.isBlank_space ih
    rw [if_neg (show ¬ startsBlank (c :: t) = true from hc)]
    rw [Bool.not_eq_true] at hc
    by_cases ht : t = [] ∨ startsBlank t = true
    · rw [normalize_cons_of_boundary hc ht]
      split_ifs with hn
      · exact .cons c (.of_forall_isBlank (isBlank_of_normalize_eq_nil hn))
      · have hstarts : startsBlank t = true := ht.resolve_left (by rintro rfl; exact hn rfl)
        rw [if_pos hstarts] at ih
        exact .cons c ih
    · rcases t with _ | ⟨d, t⟩
      · exact absurd (.inl rfl) ht
      have hd : startsBlank (d :: t) = false := by simpa using ht
      rw [normalize_cons_of_not_blank hc hd]
      rw [hd] at ih
      exact .cons c ih

/-- **What ignores respacing and leading spaces ignores normalizing.** -/
theorem apply_normalize {α : Type} {f : Text → α} (hf : ∀ {t u}, Respaced t u → f t = f u)
    (hspace : ∀ t, f (' ' :: t) = f t) (t : Text) : f (normalize t) = f t := by
  have h := hf (respaced_normalize t)
  split_ifs at h
  · rw [h, hspace]
  · exact h.symm

theorem words_normalize (t : Text) : words (normalize t) = words t :=
  apply_normalize (fun h => h.words_append_eq []) (Text.words_cons_of_blank Text.isBlank_space) t

theorem normalize_normalize (t : Text) : normalize (normalize t) = normalize t :=
  congrArg (Text.join [' ']) (words_normalize t)

theorem mem_normalize {c : Char} (hc : isBlank c = false) (t : Text) : c ∈ normalize t ↔ c ∈ t := by
  refine iff_of_eq (apply_normalize (f := fun t => c ∈ t) (fun h => propext (h.mem_iff hc)) ?_ t)
  intro t
  simp [(Text.ne_of_isBlank Text.isBlank_space hc).symm]

end StyleRules.Selector
