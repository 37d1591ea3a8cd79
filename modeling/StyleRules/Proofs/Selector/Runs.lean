import StyleRules.Proofs.Selector.Combining

/-!
# Pseudo-class runs of flattened paths

A run ends at every character that cannot continue it, among them blanks and commas. Splitting,
normalizing, nesting as a descendant and listing move text around at such characters only, so the
runs of a flattened path are those of its segments.

* `pseudoRuns_append_of_break`, `pseudoRuns_join`: runs end at a break;
* `isValid_iff_forall_pseudoRuns`: a text is valid if all its runs are accepted names;
* `pseudoRuns_normalize`, `pseudoRuns_nest`: what becomes of them in a selector of a path;
* **`mem_pseudoRuns_combine`**: a flattened path has no runs but those of its segments;
* **`startsWithAt_combine`**: nor does it start with `@` if no segment does.
-/

namespace StyleRules.Selector

open Text (isBlank Respaced)

/-! ## Runs and breaks -/

theorem modifyHead_append {f : Text → Text} {l : List Text} (h : l ≠ []) (m : List Text) :
    (l ++ m).modifyHead f = l.modifyHead f ++ m := by
  cases l with
  | nil => exact absurd rfl h
  | cons a l => rfl

theorem pseudoRunsFrom_true_ne_nil (t : Text) : pseudoRunsFrom true t ≠ [] := by
  induction t with
  | nil => simp [pseudoRunsFrom]
  | cons c t ih =>
    rw [pseudoRunsFrom]
    split_ifs <;> simp [ih]

theorem ne_colon_of_break {c : Char} (hc : isRunChar c = false) : c ≠ ':' := by
  rintro rfl
  cases hc

theorem pseudoRunsFrom_append_of_break {c : Char} (hc : isRunChar c = false) (inside : Bool)
    (s t : Text) :
    pseudoRunsFrom inside (s ++ c :: t) = pseudoRunsFrom inside s ++ pseudoRuns t := by
  induction s generalizing inside with
  | nil => cases inside <;> simp [pseudoRunsFrom, hc, ne_colon_of_break hc, pseudoRuns]
  | cons d s ih =>
    have hrest := modifyHead_append (f := (d :: ·)) (pseudoRunsFrom_true_ne_nil s) (pseudoRuns t)
    cases inside with
    | false | true =>
      rw [List.cons_append, pseudoRunsFrom, pseudoRunsFrom, ih, ih, hrest]
      split_ifs <;> rfl

theorem pseudoRuns_append_of_break {c : Char} (hc : isRunChar c = false) (s t : Text) :
    pseudoRuns (s ++ c :: t) = pseudoRuns s ++ pseudoRuns t :=
  pseudoRunsFrom_append_of_break hc false s t

theorem pseudoRuns_cons_of_break {c : Char} (hc : isRunChar c = false) (t : Text) :
    pseudoRuns (c :: t) = pseudoRuns t := pseudoRuns_append_of_break hc [] t

theorem pseudoRuns_append_of_not_mem {s : Text} (hs : ':' ∉ s) (t : Text) :
    pseudoRuns (s ++ t) = pseudoRuns t := by
  induction s with
  | nil => rfl
  | cons c s ih =>
    rw [List.mem_cons, not_or] at hs
    rw [List.cons_append, pseudoRuns, pseudoRunsFrom, if_neg (Ne.symm hs.1)]
    exact ih hs.2

theorem pseudoRuns_join {c : Char} {separator : Text} (hc : isRunChar c = false)
    (hs : ∀ d ∈ separator, isRunChar d = false) (pieces : List Text) :
    pseudoRuns (Text.join (c :: separator) pieces) = pieces.flatMap pseudoRuns := by
  have hbreak : ∀ t, pseudoRuns (separator ++ t) = pseudoRuns t := by
    intro t
    induction separator with
    | nil => rfl
    | cons d separator ih =>
      obtain ⟨hd, hrest⟩ := List.forall_mem_cons.mp hs
      rw [List.cons_append, pseudoRuns_cons_of_break hd, ih hrest]
  induction pieces with
  | nil => rfl
  | cons piece pieces ih =>
    cases pieces with
    | nil => simp
    | cons next pieces =>
      rw [Text.join_cons_cons, List.append_assoc, List.cons_append,
        pseudoRuns_append_of_break hc, hbreak, ih]
      rfl

theorem isValid_iff_forall_pseudoRuns {t : Text} (h : startsWithAt t = false) :
    isValid t = true ↔ ∀ run ∈ pseudoRuns t, isKnownPseudo run = true := by
  rw [isValid, unknownPseudo?, h, if_neg (by simp), Option.isNone_iff_eq_none,
    List.find?_eq_none]
  simp

/-! ## Selectors of a path -/

theorem isRunChar_of_isBlank {c : Char} (h : isBlank c = true) : isRunChar c = false := by
  rw [isRunChar, Bool.or_eq_false_iff, ← Bool.not_eq_true]
  refine ⟨fun hn => ?_, beq_eq_false_iff_ne.mpr (Text.ne_of_isBlank h (by decide))⟩
  rw [isBlank_of_isNameChar hn] at h
  cases h

theorem pseudoRunsFrom_of_respaced {t u : Text} (h : Respaced t u) (inside : Bool) :
    pseudoRunsFrom inside t = pseudoRunsFrom inside u := by
  have hblank : ∀ {c : Char}, isBlank c = true → ∀ (inside : Bool) (t : Text),
      pseudoRunsFrom inside (c :: t) = pseudoRunsFrom inside [] ++ pseudoRuns t :=
    fun hc inside t => pseudoRunsFrom_append_of_break (isRunChar_of_isBlank hc) inside [] t
  induction h generalizing inside with
  | nil => rfl
  | cons c _ ih => cases inside <;> simp only [pseudoRunsFrom, ih]
  | blank hb hc _ ih => rw [hblank hb, hblank hc, pseudoRuns, ih, pseudoRuns]
  | trail hb _ ih => rw [hblank hb, pseudoRuns, ih, pseudoRunsFrom, List.append_nil]
  | extra hb hc _ ih =>
    rw [hblank hb, pseudoRuns, ih, hblank hc, hblank hc]
    rfl

theorem pseudoRuns_normalize (t : Text) : pseudoRuns (normalize t) = pseudoRuns t :=
  apply_normalize (fun h => pseudoRunsFrom_of_respaced h false)
    (pseudoRuns_cons_of_break (by decide)) t

theorem pseudoRuns_nest {inner : Text} (h : placeholder ∉ inner) (outer : Text) :
    pseudoRuns (nest outer inner) = pseudoRuns outer ++ pseudoRuns inner := by
  rw [nest, if_neg h, pseudoRuns_normalize, pseudoRuns_append_of_break (by decide)]

theorem mem_pseudoRuns_of_alternative {segment piece run : Text}
    (hp : piece ∈ alternatives segment) (hr : run ∈ pseudoRuns piece) :
    run ∈ pseudoRuns segment := by
  have hjoin : pseudoRuns (Text.join [','] (alternatives segment)) =
      (alternatives segment).flatMap pseudoRuns := pseudoRuns_join (by decide) (by simp) _
  rw [alternatives, join_alternativesFrom, ← alternatives] at hjoin
  rw [hjoin]
  exact List.mem_flatMap_of_mem hp hr

theorem mem_join (separator : Text) {piece : Text} {pieces : List Text} {c : Char}
    (hp : piece ∈ pieces) (hc : c ∈ piece) : c ∈ Text.join separator pieces := by
  induction pieces with
  | nil => cases hp
  | cons first pieces ih =>
    cases pieces with
    | nil =>
      rw [List.mem_singleton] at hp
      rwa [Text.join_singleton, ← hp]
    | cons next pieces =>
      rw [Text.join_cons_cons]
      rcases List.mem_cons.mp hp with rfl | hp
      · exact List.mem_append_left _ (List.mem_append_left _ hc)
      · exact List.mem_append_right _ (ih hp)

theorem not_mem_alternative {segment piece : Text} {c : Char} (hc : c ∉ segment)
    (hp : piece ∈ alternatives segment) : c ∉ piece := by
  intro hm
  have hjoin := mem_join [','] hp hm
  rw [alternatives, join_alternativesFrom] at hjoin
  exact hc hjoin

/-- **A flattened path has no runs but those of its segments**, if only the first segment has
placeholders. -/
theorem mem_pseudoRuns_combine {first : Text} {rest : List Text} {flat run : Text}
    (hrest : ∀ segment ∈ rest, placeholder ∉ segment) (h : combine (first :: rest) = some flat)
    (hr : run ∈ pseudoRuns flat) : ∃ segment ∈ first :: rest, run ∈ pseudoRuns segment := by
  cases rest with
  | nil =>
    obtain rfl := Option.some.inj h
    rw [pseudoRuns_normalize] at hr
    exact ⟨first, List.mem_singleton_self first, hr⟩
  | cons second rest =>
    obtain rfl := Option.some.inj h
    rw [pseudoRuns_join (by decide) (List.forall_mem_singleton.mpr (by decide))] at hr
    obtain ⟨selector, hs, hr⟩ := List.mem_flatMap.mp hr
    refine forall_mem_product (p := fun selector => ∀ run ∈ pseudoRuns selector,
      ∃ segment ∈ first :: second :: rest, run ∈ pseudoRuns segment) ?_ ?_ selector
      (List.mem_eraseDups.mp hs) run hr
    · intro piece hp run hr
      rw [pseudoRuns_normalize] at hr
      exact ⟨first, List.mem_cons_self, mem_pseudoRuns_of_alternative hp hr⟩
    · intro segment hs inner hi outer ho run hr
      rw [pseudoRuns_nest (not_mem_alternative (hrest segment hs) hi)] at hr
      rcases List.mem_append.mp hr with hr | hr
      · exact ho run hr
      · exact ⟨segment, List.mem_cons_of_mem _ hs, mem_pseudoRuns_of_alternative hi hr⟩

/-! ## The start of a flattened path -/

theorem startsWithAt_cons (c : Char) (t : Text) :
    startsWithAt (c :: t) = if isBlank c then startsWithAt t else c == '@' := by
  rw [startsWithAt, Text.trimLeft, List.dropWhile_cons]
  split_ifs <;> rfl

theorem startsWithAt_append {s t : Text} (hs : startsWithAt s = false)
    (ht : startsWithAt t = false) : startsWithAt (s ++ t) = false := by
  induction s with
  | nil => exact ht
  | cons c s ih =>
    rw [startsWithAt_cons] at hs
    rw [List.cons_append, startsWithAt_cons]
    split_ifs at hs ⊢
    · exact ih hs
    · exact hs

theorem startsWithAt_of_append {s t : Text} (h : startsWithAt (s ++ t) = false) :
    startsWithAt s = false := by
  induction s with
  | nil => rfl
  | cons c s ih =>
    rw [List.cons_append, startsWithAt_cons] at h
    rw [startsWithAt_cons]
    split_ifs at h ⊢
    · exact ih h
    · exact h

theorem startsWithAt_of_respaced {t u : Text} (h : Respaced t u) :
    startsWithAt t = startsWithAt u := by
  induction h with
  | nil => rfl
  | cons c _ ih => rw [startsWithAt_cons, startsWithAt_cons, ih]
  | blank hb hc _ ih => rw [startsWithAt_cons, startsWithAt_cons, if_pos hb, if_pos hc, ih]
  | trail hb _ ih => rw [startsWithAt_cons, if_pos hb, ih]
  | extra hb _ _ ih => rw [startsWithAt_cons, if_pos hb, ih]

theorem startsWithAt_normalize (t : Text) : startsWithAt (normalize t) = startsWithAt t :=
  apply_normalize startsWithAt_of_respaced
    (fun t => by rw [startsWithAt_cons, if_pos Text.isBlank_space]) t

theorem startsWithAt_nest {outer inner : Text} (hp : placeholder ∉ inner)
    (ho : startsWithAt outer = false) (hi : startsWithAt inner = false) :
    startsWithAt (nest outer inner) = false := by
  rw [nest, if_neg hp, startsWithAt_normalize]
  refine startsWithAt_append ho ?_
  rwa [startsWithAt_cons, if_pos Text.isBlank_space]

theorem exists_alternatives {segment : Text} (h : startsWithAt segment = false) :
    ∃ piece pieces, alternatives segment = piece :: pieces ∧ startsWithAt piece = false := by
  obtain ⟨piece, pieces, heq⟩ := List.exists_cons_of_ne_nil (alternativesFrom_ne_nil 0 segment)
  refine ⟨piece, pieces, heq, ?_⟩
  rw [← join_alternativesFrom 0 segment, heq] at h
  cases pieces with
  | nil => rwa [Text.join_singleton] at h
  | cons next pieces =>
    rw [Text.join_cons_cons, List.append_assoc] at h
    exact startsWithAt_of_append h

theorem exists_product {first : Text} {rest : List Text} (hfirst : startsWithAt first = false)
    (hrest : ∀ segment ∈ rest, startsWithAt segment = false)
    (hp : ∀ segment ∈ rest, placeholder ∉ segment) :
    ∃ s selectors, product first rest = s :: selectors ∧ startsWithAt s = false := by
  have hstart : ∃ s outers, (alternatives first).map normalize = s :: outers ∧
      startsWithAt s = false := by
    obtain ⟨piece, pieces, heq, hpiece⟩ := exists_alternatives hfirst
    exact ⟨_, _, by rw [heq, List.map_cons], (startsWithAt_normalize piece).trans hpiece⟩
  unfold product
  generalize (alternatives first).map normalize = outers at hstart
  induction rest generalizing outers with
  | nil => exact hstart
  | cons segment rest ih =>
    obtain ⟨s, outers, rfl, hs⟩ := hstart
    obtain ⟨hsegment, hrest⟩ := List.forall_mem_cons.mp hrest
    obtain ⟨hplain, hp⟩ := List.forall_mem_cons.mp hp
    obtain ⟨piece, pieces, heq, hpiece⟩ := exists_alternatives hsegment
    have hmem : piece ∈ alternatives segment := heq ▸ List.mem_cons_self
    have hnest : nestAll (s :: outers) segment =
        nest s piece :: (pieces.map (nest s) ++ nestAll outers segment) := by
      rw [nestAll, List.flatMap_cons, heq, List.map_cons, List.cons_append, ← heq, ← nestAll]
    exact ih hrest hp _ ⟨_, _, hnest,
      startsWithAt_nest (not_mem_alternative hplain hmem) hs hpiece⟩

/-- **A flattened path does not start with `@`** if no segment does. -/
theorem startsWithAt_combine {first : Text} {rest : List Text} {flat : Text}
    (hat : ∀ segment ∈ first :: rest, startsWithAt segment = false)
    (hp : ∀ segment ∈ rest, placeholder ∉ segment) (h : combine (first :: rest) = some flat) :
    startsWithAt flat = false := by
  obtain ⟨hfirst, hrest⟩ := List.forall_mem_cons.mp hat
  cases rest with
  | nil =>
    obtain rfl := Option.some.inj h
    rwa [startsWithAt_normalize]
  | cons second rest =>
    obtain rfl := Option.some.inj h
    obtain ⟨s, selectors, heq, hs⟩ := exists_product hfirst hrest hp
    rw [heq, List.eraseDups_cons]
    -- the first selector of the list is followed by a comma, if by anything
    rcases (selectors.filter fun other => !other == s).eraseDups with _ | ⟨next, others⟩
    · rwa [Text.join_singleton]
    · rw [Text.join_cons_cons, List.append_assoc]
      exact startsWithAt_append hs rfl

end StyleRules.Selector
