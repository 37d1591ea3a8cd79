import StyleRules.Proofs.Pattern.Words
import StyleRules.Proofs.Text.Spacing

/-!
# Searching for words

* `Regex.Finds`: what an expression finds, as a set of texts, wherever it starts;
* `Regex.Finds.cons`, `Regex.Finds.word`: one part after another;
* `Spells`, **`Regex.search_ofWords`**: the expression of some words is found where they are
  spelled;
* **`Regex.search_of_isInfix`**: a text is found in every text that holds it;
* `ConsistsOf`, **`ofText_isMatch_iff`**: the pattern of a text finds the words of the text.
-/

namespace StyleRules.Pattern

/-! ## What an expression finds -/

namespace Regex

/-- What a map of places finds. A place of a text is given by the part of the text before it; it is
reached from a set of places if one of the texts found ends there that starts at a place of the
set. -/
structure Finds (reach : Text → Places → Places) (found : Text → Prop) : Prop where
  length_eq : ∀ {t : Text} {s : Places}, s.length = t.length + 1 →
    (reach t s).length = t.length + 1
  reach_iff : ∀ {u v : Text} {s : Places}, s.length = (u ++ v).length + 1 →
    ((reach (u ++ v) s)[u.length]? = some true ↔
      ∃ before m, u = before ++ m ∧ s[before.length]? = some true ∧ found m)

theorem finds_chars (set : CharSet) :
    Finds (reach · (chars set)) fun m => ∃ c, set.has c = true ∧ m = [c] where
  length_eq {t s} h := by
    rw [reach, Places.length_advance]
    omega
  reach_iff {u v s} h := by
    rw [reach, Places.advance]
    rcases List.eq_nil_or_concat u with rfl | ⟨u, c, rfl⟩
    · simp
    · rw [List.concat_eq_append, List.length_append, List.length_singleton,
        List.getElem?_cons_succ, List.getElem?_zipWith]
      have hc : ((u ++ [c]) ++ v)[u.length]? = some c := by simp
      rw [hc]
      rcases hs : s[u.length]? with _ | here
      · refine ⟨fun hf => by simp at hf, ?_⟩
        rintro ⟨before, m, hu, hb, d, -, rfl⟩
        obtain ⟨rfl, -⟩ := List.append_inj' hu rfl
        rw [hs] at hb
        cases hb
      · simp only [Option.some.injEq, Bool.and_eq_true]
        constructor
        · rintro ⟨rfl, hc⟩
          exact ⟨u, [c], rfl, hs, c, hc, rfl⟩
        · rintro ⟨before, m, hu, hb, d, hd, rfl⟩
          obtain ⟨rfl, hcd⟩ := List.append_inj' hu rfl
          rw [hs] at hb
          exact ⟨Option.some.inj hb, List.cons.inj hcd |>.1 ▸ hd⟩

/-- Spreading reaches what only characters of the given kind part from a place of the set, or from
where the text goes on. -/
theorem spread_iff (has : Char → Bool) {u v : Text} {s : Places} (isReached : Bool)
    (h : s.length = (u ++ v).length + 1) :
    (Places.spread has (u ++ v) s isReached)[u.length]? = some true ↔
      (∃ before m, u = before ++ m ∧ s[before.length]? = some true ∧ ∀ c ∈ m, has c = true) ∨
        isReached = true ∧ ∀ c ∈ u, has c = true := by
  induction u generalizing s isReached with
  | nil =>
    rcases s with _ | ⟨here, s⟩
    · simp at h
    · cases v <;> simp [Places.spread]
  | cons c u ih =>
    rcases s with _ | ⟨here, s⟩
    · simp at h
    · rw [List.cons_append, Places.spread, List.length_cons, List.getElem?_cons_succ,
        ih _ (by simpa using h)]
      constructor
      · rintro (⟨before, m, rfl, hb, hm⟩ | ⟨hr, hu⟩)
        · exact .inl ⟨c :: before, m, rfl, by simpa using hb, hm⟩
        · simp only [Bool.and_eq_true, Bool.or_eq_true] at hr
          rcases hr with ⟨rfl | rfl, hc⟩
          · exact .inl ⟨[], c :: u, rfl, rfl, List.forall_mem_cons.mpr ⟨hc, hu⟩⟩
          · exact .inr ⟨rfl, List.forall_mem_cons.mpr ⟨hc, hu⟩⟩
      · rintro (⟨before, m, heq, hb, hm⟩ | ⟨rfl, hu⟩)
        · rcases before with _ | ⟨d, before⟩
          · obtain rfl : here = true := by simpa using hb
            obtain rfl : c :: u = m := heq
            obtain ⟨hc, hu⟩ := List.forall_mem_cons.mp hm
            exact .inr ⟨by simp [hc], hu⟩
          · obtain ⟨rfl, rfl⟩ := List.cons.inj heq
            exact .inl ⟨before, m, rfl, by simpa using hb, hm⟩
        · obtain ⟨hc, hu⟩ := List.forall_mem_cons.mp hu
          exact .inr ⟨by simp [hc], hu⟩

/-- A gap between two words. -/
def IsGap (m : Text) : Prop := m ≠ [] ∧ ∀ c ∈ m, Text.isBlank c = true

/-- From no place no place is reached. -/
theorem advance_none (has : Char → Bool) (t : Text) : (Places.none t).advance has t = .none t := by
  have h : List.zipWith (fun here c => here && has c) (Places.none t) t =
      List.replicate t.length false := by
    unfold Places.none
    induction t with
    | nil => rfl
    | cons c t ih => simp [List.replicate_succ] at ih ⊢
                     exact ih
  rw [Places.advance, h]
  rfl

theorem reach_blanks {t : Text} {s : Places} (h : s.length = t.length + 1) :
    blanks.reach t s = Places.spread Text.isBlank t (s.advance Text.isBlank t) false := by
  have hset : (fun c => (CharSet.named false .blank).has c) = Text.isBlank := by
    funext c
    simp
  have hleast : Places.iterate (reach t (chars (.named false .blank))) 1 s =
      s.advance Text.isBlank t := by
    rw [Places.iterate, reach, hset]
    split_ifs with hany
    · rfl
    · have hnone : s = Places.none t := by
        rw [Places.none, ← h]
        exact List.eq_replicate_of_mem (by simpa using hany)
      rw [hnone, advance_none]
  rw [blanks, plus, reach, hleast, hset]
  rfl

theorem finds_blanks : Finds (reach · blanks) IsGap where
  length_eq {t s} h := by
    rw [reach_blanks h, Places.length_spread, Places.length_advance]
    omega
  reach_iff {u v s} h := by
    have hadvance : (s.advance Text.isBlank (u ++ v)).length = (u ++ v).length + 1 := by
      rw [Places.length_advance]
      omega
    have hone := fun {u v : Text} {s : Places} => (finds_chars (.named false .blank)).reach_iff
      (u := u) (v := v) (s := s)
    simp only [reach, CharSet.has_named, CharClass.has_blank] at hone
    rw [reach_blanks h, spread_iff _ _ hadvance]
    constructor
    · rintro (⟨before, m, rfl, hb, hm⟩ | ⟨hf, -⟩)
      · rw [List.append_assoc, hone (by simpa using h)] at hb
        obtain ⟨start, _, rfl, hs, c, hc, rfl⟩ := hb
        refine ⟨start, c :: m, by simp, hs, by simp, List.forall_mem_cons.mpr ⟨hc, hm⟩⟩
      · cases hf
    · rintro ⟨before, m, rfl, hb, hne, hm⟩
      obtain ⟨c, m, rfl⟩ := List.exists_cons_of_ne_nil hne
      obtain ⟨hc, hm⟩ := List.forall_mem_cons.mp hm
      refine .inl ⟨before ++ [c], m, by simp, ?_, hm⟩
      rw [show before ++ c :: m ++ v = (before ++ [c]) ++ (m ++ v) by simp,
        hone (by simpa using h)]
      exact ⟨before, [c], rfl, hb, c, hc, rfl⟩

/-- Nothing more to find is found everywhere. -/
theorem finds_nil : Finds (reachAll · []) (· = []) where
  length_eq {t s} h := by rwa [reachAll]
  reach_iff {u v s} h := by
    rw [reachAll]
    constructor
    · intro hs
      exact ⟨u, [], by simp, hs, rfl⟩
    · rintro ⟨before, _, hu, hs, rfl⟩
      rwa [hu, List.append_nil]

/-- One part and then others find one text and then another. -/
theorem Finds.cons {part : Regex} {parts : List Regex} {first others : Text → Prop}
    (hp : Finds (reach · part) first) (hps : Finds (reachAll · parts) others) :
    Finds (reachAll · (part :: parts)) fun m => ∃ a b, m = a ++ b ∧ first a ∧ others b where
  length_eq {t s} h := by
    rw [reachAll]
    exact hps.length_eq (hp.length_eq h)
  reach_iff {u v s} h := by
    rw [reachAll, hps.reach_iff (hp.length_eq h)]
    constructor
    · rintro ⟨middle, b, rfl, hm, hb⟩
      rw [List.append_assoc, hp.reach_iff (by simpa using h)] at hm
      obtain ⟨before, a, rfl, hs, ha⟩ := hm
      exact ⟨before, a ++ b, by simp, hs, a, b, rfl, ha, hb⟩
    · rintro ⟨before, _, rfl, hs, a, b, rfl, ha, hb⟩
      refine ⟨before ++ a, b, by simp, ?_, hb⟩
      rw [show before ++ (a ++ b) ++ v = (before ++ a) ++ (b ++ v) by simp,
        hp.reach_iff (by simpa using h)]
      exact ⟨before, a, rfl, hs, ha⟩

theorem Finds.congr {reach : Text → Places → Places} {found other : Text → Prop}
    (h : Finds reach found) (heq : ∀ m, found m ↔ other m) : Finds reach other := by
  rwa [show other = found from funext fun m => propext (heq m).symm]

theorem Finds.word (w : Text) {parts : List Regex} {others : Text → Prop}
    (h : Finds (reachAll · parts) others) :
    Finds (reachAll · (w.map char ++ parts)) fun m => ∃ b, m = w ++ b ∧ others b := by
  induction w with
  | nil => exact h.congr (by simp)
  | cons c w ih =>
    refine ((finds_chars (.single c)).cons ih).congr fun m => ?_
    simp only [CharSet.has_single, beq_iff_eq]
    constructor
    · rintro ⟨_, _, rfl, ⟨_, rfl, rfl⟩, b, rfl, hb⟩
      exact ⟨b, rfl, hb⟩
    · rintro ⟨b, rfl, hb⟩
      exact ⟨[c], w ++ b, rfl, ⟨c, rfl, rfl⟩, b, rfl, hb⟩

end Regex

/-! ## Words in a text -/

/-- The words in order, with one blank or more between each two. -/
inductive Spells : List Text → Text → Prop
  | nil : Spells [] []
  | single (w : Text) : Spells [w] w
  | cons (w : Text) {gap : Text} {v : Text} {ws : List Text} {t : Text} :
      Regex.IsGap gap → Spells (v :: ws) t → Spells (w :: v :: ws) (w ++ gap ++ t)

namespace Regex

theorem finds_wordParts (ws : List Text) : Finds (reachAll · (wordParts ws)) (Spells ws) := by
  induction ws with
  | nil =>
    refine finds_nil.congr fun m => ?_
    constructor
    · rintro rfl
      exact .nil
    · rintro ⟨⟩
      rfl
  | cons w ws ih =>
    cases ws with
    | nil =>
      have h := finds_nil.word w
      rw [List.append_nil] at h
      refine h.congr fun m => ?_
      constructor
      · rintro ⟨_, rfl, rfl⟩
        rw [List.append_nil]
        exact .single w
      · rintro ⟨⟩
        exact ⟨[], by simp, rfl⟩
    | cons v ws =>
      refine ((finds_blanks.cons ih).word w).congr fun m => ?_
      constructor
      · rintro ⟨_, rfl, gap, t, rfl, hgap, ht⟩
        rw [← List.append_assoc]
        exact .cons w hgap ht
      · rintro (_ | _ | @⟨_, gap, _, _, t, hgap, ht⟩)
        exact ⟨gap ++ t, by simp, gap, t, rfl, hgap, ht⟩

theorem reach_ofParts (parts : List Regex) (t : Text) (s : Places) :
    (ofParts parts).reach t s = reachAll t parts s := by
  unfold ofParts
  split
  · rw [reachAll, reachAll]
  · rw [reach]

/-- **The expression of some words is found exactly where they are spelled.** -/
theorem search_ofWords {ws : List Text} {t : Text} :
    (ofWords ws).search t = true ↔ ∃ u m v, t = u ++ m ++ v ∧ Spells ws m := by
  have hfinds := finds_wordParts ws
  have hall : (Places.all t).length = t.length + 1 := List.length_replicate
  rw [search, ofWords, reach_ofParts, List.any_eq_true]
  constructor
  · rintro ⟨_, hb, rfl⟩
    obtain ⟨j, hj⟩ := List.mem_iff_getElem?.mp hb
    have hlt : j < t.length + 1 := by
      rw [← hfinds.length_eq hall]
      exact (List.getElem?_eq_some_iff.mp hj).1
    obtain ⟨before, after, rfl, rfl⟩ : ∃ u v : Text, t = u ++ v ∧ u.length = j := by
      refine ⟨t.take j, t.drop j, (List.take_append_drop j t).symm, ?_⟩
      rw [List.length_take]
      omega
    obtain ⟨u, m, rfl, -, hm⟩ := (hfinds.reach_iff hall).mp hj
    exact ⟨u, m, after, rfl, hm⟩
  · rintro ⟨u, m, v, rfl, hm⟩
    have hu : (Places.all (u ++ m ++ v))[u.length]? = some true := by
      rw [Places.all, List.getElem?_replicate, if_pos (by simp only [List.length_append]; omega)]
    have h := (hfinds.reach_iff (u := u ++ m) (v := v) hall).mpr ⟨u, m, rfl, hu, hm⟩
    exact ⟨true, List.mem_of_getElem? h, rfl⟩

end Regex

/-! ### The words of a text -/

theorem Spells.extend (c : Char) {w : Text} {ws : List Text} {m : Text} (h : Spells (w :: ws) m) :
    Spells ((c :: w) :: ws) (c :: m) := by
  cases h with
  | single => exact .single (c :: w)
  | cons _ hgap ht => exact .cons (c :: w) hgap ht

/-- A text spells its words, between its leading blanks and its trailing ones. -/
theorem exists_spells_words (t : Text) :
    ∃ m trail, t = t.takeWhile Text.isBlank ++ m ++ trail ∧ Spells t.words m ∧
      ∀ c ∈ trail, Text.isBlank c = true := by
  induction t with
  | nil => exact ⟨[], [], rfl, .nil, fun _ h => absurd h List.not_mem_nil⟩
  | cons c t ih =>
    obtain ⟨m, trail, ht, hm, htrail⟩ := ih
    obtain ⟨hc, hw⟩ | ⟨hc, hb, hw⟩ | ⟨hc, hb, w, ws, hrest, hw⟩ := Text.words_cons_cases c t
    · rw [List.takeWhile_cons_of_pos hc, hw]
      refine ⟨m, trail, ?_, hm, htrail⟩
      rw [List.cons_append, List.cons_append, ← ht]
    · rw [List.takeWhile_cons_of_neg (by simp [hc]), hw]
      rcases hrest : Text.words t with _ | ⟨w, ws⟩
      · exact ⟨[c], t, rfl, .single [c], Text.words_eq_nil_iff.mp hrest⟩
      · -- the blanks before the next word are the gap
        have hgap : Regex.IsGap (t.takeWhile Text.isBlank) := by
          refine ⟨?_, fun d hd => List.mem_takeWhile_imp hd⟩
          rcases t with _ | ⟨d, t⟩
          · simp at hrest
          · have hd : Text.isBlank d = true := by simpa [Text.startsBlank] using hb
            simp [List.takeWhile_cons_of_pos hd]
        rw [hrest] at hm
        refine ⟨[c] ++ t.takeWhile Text.isBlank ++ m, trail, ?_, .cons [c] hgap hm, htrail⟩
        nth_rewrite 1 [ht]
        simp
    · have hnone : t.takeWhile Text.isBlank = [] := by
        rcases t with _ | ⟨d, t⟩
        · rfl
        · exact List.takeWhile_cons_of_neg (by simpa [Text.startsBlank] using hb)
      rw [hnone, List.nil_append] at ht
      rw [hrest] at hm
      rw [List.takeWhile_cons_of_neg (by simp [hc]), hw]
      exact ⟨c :: m, trail, by rw [ht]; rfl, hm.extend c, htrail⟩

namespace Regex

/-- **A text is found in every text that holds it.** -/
theorem search_of_isInfix {t target : Text} (h : t <:+: target) :
    (ofWords t.words).search target = true := by
  obtain ⟨before, after, rfl⟩ := h
  obtain ⟨m, trail, ht, hm, -⟩ := exists_spells_words t
  refine search_ofWords.mpr ⟨before ++ t.takeWhile Text.isBlank, m, trail ++ after, ?_, hm⟩
  nth_rewrite 1 [ht]
  simp

end Regex

/-! ## The pattern of a text -/

/-- The text consists of the words: they are not empty and hold no blank, one blank or more stand
between each two, and only blanks before the first and after the last. -/
structure ConsistsOf (t : Text) (ws : List Text) : Prop where
  isWord : ∀ w ∈ ws, w ≠ [] ∧ ∀ c ∈ w, Text.isBlank c = false
  spells : ∃ lead m trail, t = lead ++ m ++ trail ∧ Spells ws m ∧
    ∀ c ∈ lead ++ trail, Text.isBlank c = true

theorem consistsOf_words (t : Text) : ConsistsOf t t.words where
  isWord _ hw := ⟨Text.ne_nil_of_mem_words hw, Text.isBlank_of_mem_words hw⟩
  spells := by
    obtain ⟨m, trail, ht, hm, htrail⟩ := exists_spells_words t
    refine ⟨t.takeWhile Text.isBlank, m, trail, ht, hm, fun c hc => ?_⟩
    rcases List.mem_append.mp hc with hc | hc
    · exact List.mem_takeWhile_imp hc
    · exact htrail c hc

/-- **The meaning of a query text.** A text has a pattern, unless the automata of its source are
larger than the limit. The pattern matches where the words of the text stand, each as it is and in
their order, with one blank or more between each two; a blank text matches everywhere. -/
theorem ofText_isMatch_iff (t : Text)
    (hsize : ∀ r, Regex.read? (textSource t) = some r → r.form.fits = true) :
    ∃ p, ofText t = .ok p ∧ ConsistsOf t t.words ∧
      (∀ target, p.isMatch target = true ↔
        ∃ u m v, target = u ++ m ++ v ∧ Spells t.words m) ∧
      ((∀ c ∈ t, Text.isBlank c = true) → ∀ target, p.isMatch target = true) := by
  have hsearchable : isSearchable t = true := hsize _ (Regex.read?_textSource t)
  have hmatch : ∀ target, (Regex.ofWords t.words).search target = true ↔
      ∃ u m v, target = u ++ m ++ v ∧ Spells t.words m := fun _ => Regex.search_ofWords
  refine ⟨⟨textSource t, .ofWords t.words⟩, ?_, consistsOf_words t, hmatch, ?_⟩
  · rw [ofText_eq, if_pos hsearchable]
  · intro hblank target
    refine (hmatch target).mpr ⟨[], [], target, rfl, ?_⟩
    rw [Text.words_eq_nil_iff.mpr hblank]
    exact .nil

/-- A selector with special characters, and blanks of several kinds. -/
def sampleSelector : Text := " a.b\t>  [c] ".toList

theorem ofText_isMatch_iff_sampleSelector :
    ∃ p, ofText sampleSelector = .ok p ∧ p.isMatch "x a.b > \n[c]!".toList = true := by
  have hsearchable : isSearchable sampleSelector = true := by decide +kernel
  obtain ⟨p, hp, -, hmatch, -⟩ := ofText_isMatch_iff sampleSelector fun r hr => by
    rw [Regex.read?_textSource] at hr
    exact Option.some.inj hr ▸ hsearchable
  have hspace : Regex.IsGap [' '] := ⟨by simp, by simp⟩
  have hbreak : Regex.IsGap [' ', '\n'] := ⟨by simp, by simp⟩
  have hspells : Spells sampleSelector.words "a.b > \n[c]".toList :=
    .cons "a.b".toList hspace (.cons ">".toList hbreak (.single "[c]".toList))
  exact ⟨p, hp, (hmatch _).mpr ⟨"x ".toList, "a.b > \n[c]".toList, "!".toList, by decide, hspells⟩⟩

end StyleRules.Pattern
