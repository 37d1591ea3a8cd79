import StyleRules.Proofs.Selector.Choices

/-!
# Nested paths of selectors

Flattening the first segments of a path, and going on from the result, comes to the same as
flattening the whole path. The result is read again as a selector list: its commas outside
parentheses are those that were written between the selectors, because no selector of a path has one
itself.

* `isNestedFrom`, `IsBalanced`, `IsWhole`: parentheses are closed, without and with commas barred
  outside them;
* `whole_of_mem_alternatives`, `IsWhole.nest`: the selectors of a path of balanced segments are
  whole;
* `normalAlternatives_join`: whole selectors that are listed are read back;
* `eraseDups_flatMap_eraseDups`: repetitions may be dropped before as well as after;
* `eraseDups_normalAlternatives`: the selectors of a path are read back from the flattened path;
* `combine_cons_cons`: the first two segments of a path may be flattened on their own;
* **`combine_append`**: so may any first segments, if others follow.
-/

namespace StyleRules.Selector

open Text (isBlank ne_of_isBlank Respaced)

/-! ## Nested parentheses -/

/-- Whether all parentheses are closed at the end, reading from the given depth, and no closing
parenthesis and none of the barred characters stand at depth zero. -/
def isNestedFrom (barred : List Char) : Nat → Text → Bool
  | depth, [] => depth == 0
  | depth, c :: t =>
    (depth != 0 || (c != ')' && !barred.contains c)) && isNestedFrom barred (depthAfter depth c) t

/-- The parentheses of `t` are balanced. -/
def IsBalanced (t : Text) : Prop := isNestedFrom [] 0 t = true

/-- The parentheses of `t` are balanced, and it has no comma outside of them. -/
def IsWhole (t : Text) : Prop := isNestedFrom [','] 0 t = true

instance (t : Text) : Decidable (IsBalanced t) := inferInstanceAs (Decidable (_ = true))

instance (t : Text) : Decidable (IsWhole t) := inferInstanceAs (Decidable (_ = true))

theorem isNestedFrom_cons {barred : List Char} {depth : Nat} {c : Char} {t : Text} :
    isNestedFrom barred depth (c :: t) = true ↔
      (depth = 0 → c ≠ ')' ∧ c ∉ barred) ∧ isNestedFrom barred (depthAfter depth c) t = true := by
  by_cases h : depth = 0 <;> simp [isNestedFrom, h]

theorem isNestedFrom_cons_of_plain {barred : List Char} {c : Char} (ho : c ≠ '(') (hc : c ≠ ')')
    (hb : c ∉ barred) (depth : Nat) (t : Text) :
    isNestedFrom barred depth (c :: t) = isNestedFrom barred depth t := by
  simp [isNestedFrom, depthAfter, ho, hc, hb]

theorem depthAfter_add {k : Nat} {c : Char} (h : k = 0 → c ≠ ')') (depth : Nat) :
    depthAfter (k + depth) c = depthAfter k c + depth := by
  unfold depthAfter
  split_ifs with ho hc
  · omega
  · have : k ≠ 0 := fun hk => h hk hc
    omega
  · rfl

theorem isNestedFrom_append {barred : List Char} {k : Nat} {s : Text}
    (hs : isNestedFrom barred k s = true) (depth : Nat) (t : Text) :
    isNestedFrom barred (k + depth) (s ++ t) = isNestedFrom barred depth t := by
  induction s generalizing k with
  | nil =>
    obtain rfl : k = 0 := by simpa [isNestedFrom] using hs
    simp
  | cons c s ih =>
    obtain ⟨hc, hs⟩ := isNestedFrom_cons.mp hs
    rw [List.cons_append, isNestedFrom, depthAfter_add fun hk => (hc hk).1, ih hs]
    by_cases hk : k = 0
    · simp [hc hk]
    · simp [hk]

theorem depthFrom_of_isNestedFrom {barred : List Char} {depth : Nat} {t : Text}
    (h : isNestedFrom barred depth t = true) : depthFrom depth t = 0 := by
  induction t generalizing depth with
  | nil => simpa [isNestedFrom, depthFrom] using h
  | cons c t ih => exact ih (isNestedFrom_cons.mp h).2

theorem noOuterComma_of_isNestedFrom {depth : Nat} {t : Text}
    (h : isNestedFrom [','] depth t = true) : NoOuterComma depth t := by
  induction t generalizing depth with
  | nil => exact noOuterComma_nil depth
  | cons c t ih =>
    obtain ⟨hc, ht⟩ := isNestedFrom_cons.mp h
    refine noOuterComma_cons.mpr ⟨?_, ih ht⟩
    rintro ⟨rfl, hdepth⟩
    exact (hc hdepth).2 List.mem_cons_self

/-- The pieces of a nested text are whole, the first of them from the depth where it starts. -/
theorem exists_alternativesFrom {depth : Nat} {t : Text} (h : isNestedFrom [] depth t = true) :
    ∃ piece pieces, alternativesFrom depth t = piece :: pieces ∧
      isNestedFrom [','] depth piece = true ∧ ∀ other ∈ pieces, IsWhole other := by
  induction t generalizing depth with
  | nil => exact ⟨[], [], rfl, h, by simp⟩
  | cons c t ih =>
    obtain ⟨hc, hrest⟩ := isNestedFrom_cons.mp h
    by_cases hcomma : c = ',' ∧ depth = 0
    · obtain ⟨rfl, rfl⟩ := hcomma
      obtain ⟨piece, pieces, heq, hpiece, hpieces⟩ := ih hrest
      refine ⟨[], piece :: pieces, ?_, rfl, List.forall_mem_cons.mpr ⟨hpiece, hpieces⟩⟩
      rw [alternativesFrom, if_pos ⟨rfl, rfl⟩, ← heq]
      rfl
    · obtain ⟨piece, pieces, heq, hpiece, hpieces⟩ := ih hrest
      refine ⟨c :: piece, pieces, ?_, isNestedFrom_cons.mpr ⟨fun hd => ?_, hpiece⟩, hpieces⟩
      · rw [alternativesFrom, if_neg hcomma, heq, List.modifyHead_cons]
      · exact ⟨(hc hd).1, by simpa using fun h => hcomma ⟨h, hd⟩⟩

theorem whole_of_mem_alternatives {t : Text} (h : IsBalanced t) :
    ∀ piece ∈ alternatives t, IsWhole piece := by
  obtain ⟨piece, pieces, heq, hpiece, hpieces⟩ := exists_alternativesFrom h
  rw [alternatives, heq]
  exact List.forall_mem_cons.mpr ⟨hpiece, hpieces⟩

/-! ## Whole selectors -/

theorem isNestedFrom_cons_of_blank {c : Char} (h : isBlank c = true) (depth : Nat) (t : Text) :
    isNestedFrom [','] depth (c :: t) = isNestedFrom [','] depth t := by
  have hcomma : c ∉ [','] := fun hc => ne_of_isBlank h (by decide) (List.mem_singleton.mp hc)
  exact isNestedFrom_cons_of_plain (ne_of_isBlank h (by decide)) (ne_of_isBlank h (by decide))
    hcomma depth t

theorem isNestedFrom_of_respaced {t u : Text} (h : Respaced t u) (depth : Nat) :
    isNestedFrom [','] depth t = isNestedFrom [','] depth u := by
  induction h generalizing depth with
  | nil => rfl
  | cons c _ ih => rw [isNestedFrom, isNestedFrom, ih]
  | blank hb hc _ ih => rw [isNestedFrom_cons_of_blank hb, isNestedFrom_cons_of_blank hc, ih]
  | trail hb _ ih => rw [isNestedFrom_cons_of_blank hb, ih]
  | extra hb _ _ ih => rw [isNestedFrom_cons_of_blank hb, ih]

theorem isNestedFrom_normalize (depth : Nat) (t : Text) :
    isNestedFrom [','] depth (normalize t) = isNestedFrom [','] depth t :=
  apply_normalize (fun h => isNestedFrom_of_respaced h depth)
    (isNestedFrom_cons_of_blank Text.isBlank_space depth) t

theorem isNestedFrom_substitute {outer : Text} (ho : IsWhole outer) (depth : Nat) (t : Text) :
    isNestedFrom [','] depth (substitute outer t) = isNestedFrom [','] depth t := by
  induction t generalizing depth with
  | nil => rfl
  | cons c t ih =>
    rw [substitute_cons]
    split_ifs with hc
    · have happend := isNestedFrom_append ho depth (substitute outer t)
      rw [Nat.zero_add] at happend
      rw [happend, ih, hc]
      exact (isNestedFrom_cons_of_plain (by decide) (by decide) (by decide) depth t).symm
    · rw [List.singleton_append, isNestedFrom, ih, ← isNestedFrom]

theorem IsWhole.normalize {t : Text} (h : IsWhole t) : IsWhole (Selector.normalize t) :=
  (isNestedFrom_normalize 0 t).trans h

theorem IsWhole.nest {outer inner : Text} (ho : IsWhole outer) (hi : IsWhole inner) :
    IsWhole (Selector.nest outer inner) := by
  refine IsWhole.normalize ?_
  split_ifs
  · exact (isNestedFrom_substitute ho 0 inner).trans hi
  · exact (isNestedFrom_append ho 0 _).trans
      ((isNestedFrom_cons_of_blank Text.isBlank_space 0 inner).trans hi)

theorem join_comma_space (piece : Text) (pieces : List Text) :
    Text.join [',', ' '] (piece :: pieces) = Text.join [','] (piece :: pieces.map (' ' :: ·)) := by
  induction pieces generalizing piece with
  | nil => rfl
  | cons next pieces ih =>
    have hspace : Text.join [','] ((' ' :: next) :: pieces.map (' ' :: ·)) =
        ' ' :: Text.join [','] (next :: pieces.map (' ' :: ·)) := by
      cases pieces with
      | nil => simp
      | cons other pieces => simp [Text.join_cons_cons]
    rw [Text.join_cons_cons, ih, List.map_cons, Text.join_cons_cons, hspace]
    simp

/-- The normalized selectors of a list are read back from the list. -/
theorem normalAlternatives_join {pieces : List Text} (hne : pieces ≠ [])
    (hwhole : ∀ piece ∈ pieces, IsWhole piece)
    (hnormal : ∀ piece ∈ pieces, normalize piece = piece) :
    normalAlternatives (Text.join [',', ' '] pieces) = pieces := by
  obtain ⟨piece, pieces, rfl⟩ := List.exists_cons_of_ne_nil hne
  obtain ⟨hpiece, hpieces⟩ := List.forall_mem_cons.mp hwhole
  obtain ⟨heq, hnormal⟩ := List.forall_mem_cons.mp hnormal
  have hspaced : ∀ t ∈ piece :: pieces.map (' ' :: ·), IsWhole t := by
    refine List.forall_mem_cons.mpr ⟨hpiece, List.forall_mem_map.mpr fun t ht => ?_⟩
    exact (isNestedFrom_cons_of_blank Text.isBlank_space 0 t).trans (hpieces t ht)
  have hread : alternatives (Text.join [',', ' '] (piece :: pieces)) =
      piece :: pieces.map (' ' :: ·) := by
    rw [join_comma_space]
    apply alternatives_join_comma (List.cons_ne_nil _ _)
    · exact fun t ht => noOuterComma_of_isNestedFrom (hspaced t ht)
    · exact fun t ht => depthFrom_of_isNestedFrom (hspaced t ((List.dropLast_sublist _).subset ht))
  -- the space after each comma is dropped again
  have hdrop : pieces.map (normalize ∘ (' ' :: ·)) = pieces := by
    rw [List.map_congr_left fun t ht => ?_, List.map_id]
    exact (normalize_cons_of_blank Text.isBlank_space t).trans (hnormal t ht)
  rw [normalAlternatives, hread, List.map_cons, List.map_map, heq, hdrop]

/-! ## Repetitions -/

theorem eraseDups_filter (p : Text → Bool) (l : List Text) :
    (l.filter p).eraseDups = l.eraseDups.filter p := by
  match l with
  | [] => rfl
  | a :: l =>
    rw [List.eraseDups_cons]
    by_cases ha : p a = true
    · rw [List.filter_cons_of_pos ha, List.filter_cons_of_pos ha, List.eraseDups_cons,
        List.filter_filter, ← eraseDups_filter p (l.filter fun b => !b == a), List.filter_filter]
      simp only [Bool.and_comm]
    · rw [List.filter_cons_of_neg ha, List.filter_cons_of_neg ha,
        ← eraseDups_filter p (l.filter fun b => !b == a), List.filter_filter]
      -- what is equal to the first is dropped with it
      congr 1
      refine List.filter_congr fun b _ => ?_
      by_cases hb : b = a <;> simp [hb, ha]
termination_by l.length
decreasing_by all_goals exact Nat.lt_succ_of_le (List.length_filter_le _ _)

theorem filter_flatMap_filter {f : Text → List Text} {p q : Text → Bool}
    (h : ∀ a, q a = false → (f a).filter p = []) (l : List Text) :
    ((l.filter q).flatMap f).filter p = (l.flatMap f).filter p := by
  induction l with
  | nil => rfl
  | cons a l ih =>
    rw [List.flatMap_cons, List.filter_append, ← ih]
    rcases ha : q a with _ | _
    · rw [List.filter_cons_of_neg (by simp [ha]), h a ha, List.nil_append]
    · rw [List.filter_cons_of_pos ha, List.flatMap_cons, List.filter_append]

/-- Repetitions may be dropped before as well as after. -/
theorem eraseDups_flatMap_eraseDups (f : Text → List Text) (l : List Text) :
    (l.eraseDups.flatMap f).eraseDups = (l.flatMap f).eraseDups := by
  match l with
  | [] => rfl
  | a :: l =>
    rw [List.eraseDups_cons, List.flatMap_cons, List.flatMap_cons, List.eraseDups_append,
      List.eraseDups_append, List.removeAll, List.removeAll, eraseDups_filter,
      eraseDups_flatMap_eraseDups f (l.filter fun b => !b == a), ← eraseDups_filter]
    -- the repetitions of the first yield nothing new
    rw [filter_flatMap_filter]
    intro b hb
    obtain rfl : b = a := by simpa using hb
    simp
termination_by l.length
decreasing_by exact Nat.lt_succ_of_le (List.length_filter_le _ _)

theorem eraseDups_idem (l : List Text) : l.eraseDups.eraseDups = l.eraseDups := by
  have h := eraseDups_flatMap_eraseDups (fun t => [t]) l
  rwa [List.flatMap_singleton', List.flatMap_singleton'] at h

/-- Paths that start with the same selectors, up to repetitions, stand for the same ones. -/
theorem eraseDups_foldl_nestAll {outers others : List Text}
    (h : outers.eraseDups = others.eraseDups) (rest : List Text) :
    (rest.foldl nestAll outers).eraseDups = (rest.foldl nestAll others).eraseDups := by
  induction rest generalizing outers others with
  | nil => exact h
  | cons segment rest ih =>
    refine ih ?_
    rw [nestAll, nestAll, ← eraseDups_flatMap_eraseDups, h, eraseDups_flatMap_eraseDups]

/-! ## Flattening in two steps -/

theorem product_ne_nil (first : Text) (rest : List Text) : product first rest ≠ [] := by
  have hne : ∀ segment, alternatives segment ≠ [] := alternativesFrom_ne_nil 0
  have hstart : (alternatives first).map normalize ≠ [] := by simpa using hne first
  unfold product
  generalize (alternatives first).map normalize = outers at hstart
  induction rest generalizing outers with
  | nil => exact hstart
  | cons segment rest ih =>
    obtain ⟨outer, outers, rfl⟩ := List.exists_cons_of_ne_nil hstart
    exact ih _ (by simp [nestAll, hne segment])

theorem whole_of_mem_product {first : Text} {rest : List Text}
    (h : ∀ segment ∈ first :: rest, IsBalanced segment) : ∀ s ∈ product first rest, IsWhole s := by
  obtain ⟨hfirst, hrest⟩ := List.forall_mem_cons.mp h
  apply forall_mem_product
  · exact fun piece hp => (whole_of_mem_alternatives hfirst piece hp).normalize
  · exact fun segment hs inner hi outer ho =>
      ho.nest (whole_of_mem_alternatives (hrest segment hs) inner hi)

/-- The selectors of a path are read back from the flattened path, up to repetitions. -/
theorem eraseDups_normalAlternatives {first : Text} {rest : List Text} {flat : Text}
    (hb : ∀ segment ∈ first :: rest, IsBalanced segment)
    (h : combine (first :: rest) = some flat) :
    (normalAlternatives flat).eraseDups = (product first rest).eraseDups := by
  cases rest with
  | nil =>
    obtain rfl := Option.some.inj h
    rw [normalAlternatives_normalize]
    rfl
  | cons second rest =>
    obtain rfl := Option.some.inj h
    have hne : (product first (second :: rest)).eraseDups ≠ [] := by
      obtain ⟨s, hs⟩ := List.exists_mem_of_ne_nil _ (product_ne_nil first (second :: rest))
      exact List.ne_nil_of_mem (List.mem_eraseDups.mpr hs)
    rw [normalAlternatives_join hne, eraseDups_idem]
    · exact fun s hs => whole_of_mem_product hb s (List.mem_eraseDups.mp hs)
    · exact fun s hs => normalize_of_mem_product s (List.mem_eraseDups.mp hs)

/-- Going on from the flattened path is going on from the path. -/
theorem combine_append_of_combine {first : Text} {rest : List Text} {flat : Text}
    (hb : ∀ segment ∈ first :: rest, IsBalanced segment)
    (h : combine (first :: rest) = some flat) (next : Text) (inner : List Text) :
    combine (first :: rest ++ next :: inner) = combine (flat :: next :: inner) := by
  have hpath := eraseDups_foldl_nestAll (eraseDups_normalAlternatives hb h) (next :: inner)
  have hcombine : combine (first :: rest ++ next :: inner) =
      some (Text.join [',', ' '] (product first (rest ++ next :: inner)).eraseDups) := by
    cases rest <;> rfl
  rw [hcombine, product, List.foldl_append, ← product, ← hpath]
  rfl

/-- The first two segments of a path may be flattened on their own, if their parentheses are
balanced and the result is normalized. -/
theorem combine_cons_cons {outer inner flat : Text} (ho : IsBalanced outer) (hi : IsBalanced inner)
    (h : combine [outer, inner] = some flat) (hn : normalize flat = flat) (rest : List Text) :
    combine (outer :: inner :: rest) = combine (flat :: rest) := by
  cases rest with
  | nil => rw [h, combine, hn]
  | cons segment rest => exact combine_append_of_combine (by simp [ho, hi]) h segment rest

/-- **Flattening is associative.** The first segments of a path, one or more and with balanced
parentheses, may be flattened on their own: the path that goes on from the result, with any further
segments, is flattened to the same list. -/
theorem combine_append {outer inner : List Text} (ho : outer ≠ []) (hi : inner ≠ [])
    (hb : ∀ segment ∈ outer, IsBalanced segment) :
    ∃ flat, combine outer = some flat ∧ combine (outer ++ inner) = combine ([flat] ++ inner) := by
  obtain ⟨first, rest, rfl⟩ := List.exists_cons_of_ne_nil ho
  obtain ⟨next, inner, rfl⟩ := List.exists_cons_of_ne_nil hi
  obtain ⟨flat, hflat⟩ := Option.isSome_iff_exists.mp (isSome_combine ho)
  exact ⟨flat, hflat, combine_append_of_combine hb hflat next inner⟩

/-- Segments with repetitions, commas in parentheses and placeholders. -/
def sampleOuter : List Text := ["a, a".toList, "&:is(b, c), :not(&, d)".toList]

theorem combine_append_sampleOuter :
    combine sampleOuter = some "a:is(b, c), :not(a, d)".toList ∧
      combine (sampleOuter ++ ["i), & (j".toList]) =
        combine ["a:is(b, c), :not(a, d)".toList, "i), & (j".toList] := by
  have hflat : combine sampleOuter = some "a:is(b, c), :not(a, d)".toList := by decide
  have hinner : ["i), & (j".toList] ≠ [] := by decide
  have houter : sampleOuter ≠ [] := by decide
  obtain ⟨flat, hcombine, happend⟩ := combine_append houter hinner (by decide)
  obtain rfl := Option.some.inj (hflat.symm.trans hcombine)
  exact ⟨hflat, happend⟩

end StyleRules.Selector
