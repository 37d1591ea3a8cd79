import StyleRules.Proofs.Source.Cutting
import StyleRules.Proofs.Source.Quiet

/-!
# The texts of tokens

* `Neat`: blanks are single spaces, and none stands before a comma; kept by every piece of a text;
* `neat_squeeze`: so is every squeezed text;
* `spaced_tokenText`, `tokenText_sublist`: what becomes of a piece of text in its token;
* `normalize_of_spaced`: a spaced text is its own normal form as a selector;
* `isCutFree_append`: a text without cuts, in two pieces;
* `uncut`, `uncut_piecesFrom`: the text that pieces were cut from;
* **`legible_of_mem_tokens`**: the texts of the tokens of a normal form are legible.
-/

namespace StyleRules.Source

open Text (isBlank startsBlank endsBlank Flush Spaced)

/-! ## Neat texts -/

/-- Blanks are single spaces, and none stands before a comma. -/
structure Neat (t : Text) : Prop where
  blank_eq : ∀ c ∈ t, isBlank c = true → c = ' '
  single : hasPair ' ' ' ' t = false
  tight : hasPair ' ' ',' t = false

-- not by trying every character there is
instance (t : Text) : Decidable (Neat t) :=
  haveI : Decidable (∀ c ∈ t, isBlank c = true → c = ' ') := List.decidableBAll _ t
  decidable_of_iff ((∀ c ∈ t, isBlank c = true → c = ' ') ∧ hasPair ' ' ' ' t = false ∧
      hasPair ' ' ',' t = false)
    ⟨fun h => ⟨h.1, h.2.1, h.2.2⟩, fun h => ⟨h.blank_eq, h.single, h.tight⟩⟩

theorem hasPair_of_append {a b : Char} {s t : Text} (h : hasPair a b (s ++ t) = false) :
    hasPair a b s = false ∧ hasPair a b t = false := by
  induction s with
  | nil => exact ⟨rfl, h⟩
  | cons c s ih =>
    rw [List.cons_append, hasPair, Bool.or_eq_false_iff] at h
    refine ⟨?_, (ih h.2).2⟩
    rw [hasPair, (ih h.2).1, Bool.or_false]
    cases s with
    | nil => simp
    | cons d s => exact h.1

theorem Neat.of_append {s t : Text} (h : Neat (s ++ t)) : Neat s ∧ Neat t := by
  obtain ⟨h1, h2⟩ := hasPair_of_append h.single
  obtain ⟨h3, h4⟩ := hasPair_of_append h.tight
  exact ⟨⟨fun c hc => h.blank_eq c (List.mem_append_left t hc), h1, h3⟩,
    ⟨fun c hc => h.blank_eq c (List.mem_append_right s hc), h2, h4⟩⟩

/-- Every piece of a neat text is neat. -/
theorem Neat.of_isInfix {s t : Text} (h : Neat t) (hs : s <:+: t) : Neat s := by
  obtain ⟨before, after, rfl⟩ := hs
  exact h.of_append.1.of_append.2

theorem tightenCommas_of_hasPair {t : Text} (h : hasPair ' ' ',' t = false) :
    tightenCommas t = t := by
  induction t with
  | nil => rfl
  | cons c t ih =>
    rw [hasPair, Bool.or_eq_false_iff] at h
    have hc : ¬ (c = ' ' ∧ t.head? = some ',') := by simpa using h.1
    rw [tightenCommas, if_neg hc, ih h.2]

theorem Neat.tighten_eq {t : Text} (h : Neat t) : tightenCommas t = t :=
  tightenCommas_of_hasPair h.tight

theorem collapse_of_single {t : Text} (hb : ∀ c ∈ t, isBlank c = true → c = ' ')
    (h : hasPair ' ' ' ' t = false) : Text.collapse t = t := by
  induction t with
  | nil => rfl
  | cons c t ih =>
    rw [hasPair, Bool.or_eq_false_iff] at h
    have hrest := ih (fun d hd => hb d (List.mem_cons_of_mem c hd)) h.2
    rw [Text.collapse, hrest]
    split_ifs with hc hs
    · -- a blank after a blank would be the pair of spaces
      obtain rfl := hb c List.mem_cons_self hc
      cases t with
      | nil => cases hs
      | cons d t =>
        obtain rfl := hb d (List.mem_cons_of_mem _ List.mem_cons_self) hs
        exact absurd h.1 (by simp)
    · rw [hb c List.mem_cons_self hc]
    · rfl

theorem Neat.collapse_eq {t : Text} (h : Neat t) : Text.collapse t = t :=
  collapse_of_single h.blank_eq h.single

/-! ## Normal forms -/

theorem head?_collapse {t : Text} (h : startsBlank t = false) :
    (Text.collapse t).head? = t.head? := by
  cases t with
  | nil => rfl
  | cons c t =>
    rw [Text.collapse, show isBlank c = false from h]
    rfl

/-- Collapsing leaves no two spaces side by side. -/
theorem single_collapse (t : Text) : hasPair ' ' ' ' (Text.collapse t) = false := by
  induction t with
  | nil => rfl
  | cons c t ih =>
    rw [Text.collapse]
    split_ifs with hc hs
    · exact ih
    · rw [Bool.not_eq_true] at hs
      have hhead : t.head? ≠ some ' ' := by
        cases t with
        | nil => simp
        | cons d t =>
          rintro h
          obtain rfl := Option.some.inj h
          cases hs
      rw [hasPair, head?_collapse hs, ih]
      simp [hhead]
    · have hne : c ≠ ' ' := by
        rintro rfl
        exact hc rfl
      rw [hasPair, ih]
      simp [hne]

theorem head?_tightenCommas {t : Text} (h : t.head? ≠ some ' ') :
    (tightenCommas t).head? = t.head? := by
  cases t with
  | nil => rfl
  | cons c t =>
    have hc : c ≠ ' ' := fun hc => h (by rw [hc]; rfl)
    rw [tightenCommas, if_neg fun hc' => hc hc'.1]
    rfl

/-- Tightening keeps spaces single and leaves none before a comma. -/
theorem hasPair_tightenCommas {t : Text} (h : hasPair ' ' ' ' t = false) :
    hasPair ' ' ' ' (tightenCommas t) = false ∧ hasPair ' ' ',' (tightenCommas t) = false := by
  induction t with
  | nil => exact ⟨rfl, rfl⟩
  | cons c t ih =>
    rw [hasPair, Bool.or_eq_false_iff] at h
    obtain ⟨h1, h2⟩ := ih h.2
    rw [tightenCommas]
    split_ifs with hc
    · exact ⟨h1, h2⟩
    · rw [hasPair, hasPair, h1, h2]
      by_cases hspace : c = ' '
      · subst hspace
        have hhead : t.head? ≠ some ' ' := by simpa using h.1
        have hcomma : t.head? ≠ some ',' := fun ht => hc ⟨rfl, ht⟩
        rw [head?_tightenCommas hhead]
        simp [hhead, hcomma]
      · simp [hspace]

/-- Squeezing makes a text neat. -/
theorem neat_squeeze (t : Text) : Neat (squeeze t) := by
  obtain ⟨h1, h2⟩ := hasPair_tightenCommas (single_collapse t)
  exact ⟨fun c hc => Text.eq_space_of_mem_collapse ((tightenCommas_sublist _).subset hc), h1, h2⟩

theorem Legible.neat {t : Text} (h : Legible t) : Neat t := h.squeeze_eq ▸ neat_squeeze t

theorem single_of_collapse_eq {t : Text} (h : Text.collapse t = t) :
    (∀ c ∈ t, isBlank c = true → c = ' ') ∧ hasPair ' ' ' ' t = false := by
  refine ⟨fun c hc hb => ?_, h ▸ single_collapse t⟩
  rw [← h] at hc
  exact Text.eq_space_of_mem_collapse hc hb

/-- A spaced text is its own normal form as a selector. -/
theorem normalize_of_spaced {t : Text} (h : Spaced t) : Selector.normalize t = t := by
  obtain ⟨hblank, hsingle⟩ := single_of_collapse_eq h.collapse_eq
  match t with
  | [] => rfl
  | [c] => exact (Selector.normalize_cons_of_boundary h.starts (.inl rfl)).trans (if_pos rfl)
  | c :: d :: t =>
    have hc : isBlank c = false := h.starts
    have hends := h.ends
    rw [hasPair, Bool.or_eq_false_iff] at hsingle
    have hrest := fun e he => hblank e (List.mem_cons_of_mem c he)
    rw [Text.endsBlank_cons (List.cons_ne_nil d t)] at hends
    by_cases hd : isBlank d = true
    · -- the word ends here, and the next one starts after this space
      obtain rfl := hrest d List.mem_cons_self hd
      have ht : t ≠ [] := by
        rintro rfl
        cases hends
      have hpair := Bool.or_eq_false_iff.mp hsingle.2
      have hstarts : startsBlank t = false := by
        rcases t with _ | ⟨e, t⟩
        · rfl
        · show isBlank e = false
          rw [← Bool.not_eq_true]
          intro he
          obtain rfl := hrest e (by simp) he
          exact absurd hpair.1 (by simp)
      have hspaced : Spaced t := ⟨⟨hstarts, collapse_of_single
        (fun e he => hrest e (List.mem_cons_of_mem _ he)) hpair.2⟩,
        by rwa [Text.endsBlank_cons ht] at hends⟩
      have hblank : startsBlank (' ' :: t) = true := hd
      rw [Selector.normalize_cons_of_boundary hc (.inr hblank), Selector.normalize_cons_of_blank hd,
        normalize_of_spaced hspaced, if_neg ht]
    · have hstarts : startsBlank (d :: t) = false := by simpa [startsBlank] using hd
      rw [Selector.normalize_cons_of_not_blank hc hstarts,
        normalize_of_spaced ⟨⟨hstarts, collapse_of_single hrest hsingle.2⟩, hends⟩]

/-! ## Pieces without cuts -/

theorem isCutFree_append {s : Text} (hs : endsEscaped s = false) (t : Text) :
    isCutFree (s ++ t) = (isCutFree s && isCutFree t) := by
  fun_induction isCutFree s with
  | case1 => rfl
  | case2 c s ih =>
    rw [endsEscaped] at hs
    rw [List.cons_append, List.cons_append, isCutFree, ih hs]
  | case3 c s hne ih =>
    have hc : c ≠ '\\' := by
      rintro rfl
      cases s with
      | nil => cases hs
      | cons d s => exact hne d s rfl rfl
    rw [endsEscaped_cons hc] at hs
    rw [List.cons_append, isCutFree_cons hc, ih hs, Bool.and_assoc]

/-- What comes first has no cuts if the whole has none. -/
theorem isCutFree_of_append {s t : Text} (h : isCutFree (s ++ t) = true) : isCutFree s = true := by
  fun_induction isCutFree s with
  | case1 => rfl
  | case2 c s ih =>
    rw [List.cons_append, List.cons_append, isCutFree] at h
    exact ih h
  | case3 c s hne ih =>
    by_cases hc : c = '\\'
    · subst hc
      cases s with
      | nil => rfl
      | cons d s => exact absurd rfl (hne d s rfl)
    · rw [List.cons_append, isCutFree_cons hc, Bool.and_eq_true] at h
      rw [h.1, ih h.2]
      rfl

theorem isCutFree_of_isPrefix {s t : Text} (h : isCutFree t = true) (hs : s <+: t) :
    isCutFree s = true := by
  obtain ⟨after, rfl⟩ := hs
  exact isCutFree_of_append h

theorem isBlank_backslash : isBlank '\\' = false := by decide

/-- The blanks taken off in front hide nothing. -/
theorem isCutFree_trimLeft {t : Text} (h : isCutFree t = true) : isCutFree t.trimLeft = true := by
  have hplain : ∀ c ∈ t.takeWhile isBlank, c ≠ '\\' ∧ Delimiter.ofChar? c = none := by
    intro c hc
    have hb := List.mem_takeWhile_imp hc
    refine ⟨?_, ?_⟩
    · rintro rfl
      cases hb.symm.trans isBlank_backslash
    · rcases hd : Delimiter.ofChar? c with _ | delimiter
      · rfl
      · cases hb.symm.trans (isBlank_of_delimiter hd)
  rw [← List.takeWhile_append_dropWhile (p := isBlank) (l := t),
    (isCutFree_append_of_plain hplain _).1] at h
  exact h

/-- A trimmed piece of a neat text is legible, if it has no cuts. -/
theorem legible_trim {t : Text} (h : Neat t) (hcut : isCutFree t = true) : Legible t.trim := by
  have hneat := h.of_isInfix (Text.trim_isInfix t)
  exact ⟨⟨⟨Text.startsBlank_trim t, hneat.collapse_eq⟩, Text.endsBlank_trimRight _⟩,
    hneat.tighten_eq,
    isCutFree_of_isPrefix (isCutFree_trimLeft hcut) (Text.trimRight_isPrefix _)⟩

/-! ## The texts of pieces -/

theorem neat_tokenText (t : Text) : Neat (tokenText t) :=
  (neat_squeeze t).of_isInfix (Text.trim_isInfix _)

theorem spaced_tokenText (t : Text) : Spaced (tokenText t) where
  starts := Text.startsBlank_trim _
  collapse_eq := (neat_tokenText t).collapse_eq
  ends := Text.endsBlank_trimRight _

/-- A text that comes out of its token as it went in is legible, if it has no cuts. -/
theorem legible_of_tokenText_eq {t : Text} (h : tokenText t = t) (hcut : isCutFree t = true) :
    Legible t :=
  ⟨h ▸ spaced_tokenText t, (h ▸ neat_tokenText t : Neat t).tighten_eq, hcut⟩

/-- A token has no characters but those of its piece, if the blanks of this are spaces. -/
theorem tokenText_sublist {t : Text} (h : ∀ c ∈ t, isBlank c = true → c = ' ') :
    (tokenText t).Sublist t :=
  (Text.trim_isInfix _).sublist.trans ((tightenCommas_sublist _).trans (Text.collapse_sublist h))

theorem head?_tokenText {c : Char} (hc : isBlank c = false) (t : Text) :
    (tokenText (c :: t)).head? = some c := by
  have hsqueeze : squeeze (c :: t) = c :: squeeze t := by
    rw [squeeze, Text.collapse, if_neg (by simp [hc]), tightenCommas, if_neg]
    · rfl
    · rintro ⟨rfl, -⟩
      cases hc
  have htrim := Text.trimRight_append_cons hc [] (squeeze t)
  rw [tokenText, hsqueeze, Text.trim,
    Text.trimLeft_of_not_startsBlank (show startsBlank (c :: squeeze t) = false from hc)]
  simpa using congrArg List.head? htrim

theorem isAtRule_tokenText {t : Text} (h : isAtRule t = true) : isAtRule (tokenText t) = true := by
  obtain ⟨rest, rfl⟩ : ∃ rest, t = '@' :: rest := by
    simpa [isAtRule, List.head?_eq_some_iff] using h
  rw [isAtRule, head?_tokenText (by decide)]
  rfl

/-! ## Tokens -/

/-- What holds of the first piece with a prefix put before it, and of the other pieces, holds of
all pieces. -/
theorem forall_mem_modifyHead (p : Text → Prop) {before : Text} {pieces : List Token}
    (hfirst : ∀ token ∈ pieces.head?, p (before ++ token.text))
    (hrest : ∀ token ∈ pieces.tail, p token.text) :
    ∀ token ∈ pieces.modifyHead (.prepend before), p token.text := by
  cases pieces with
  | nil => exact fun token h => absurd h List.not_mem_nil
  | cons first rest => exact List.forall_mem_cons.mpr ⟨hfirst first rfl, hrest⟩

/-- The pieces of a text have no cuts. -/
theorem isCutFree_of_mem_piecesFrom {offset : Nat} {t : Text} :
    ∀ token ∈ piecesFrom offset t, isCutFree token.text = true := by
  fun_induction piecesFrom offset t with
  | case1 => simp [isCutFree]
  | case2 offset c t ih =>
    exact forall_mem_modifyHead (isCutFree · = true)
      (fun token h => ih token (List.mem_of_mem_head? h))
      fun token h => ih token (List.mem_of_mem_tail h)
  | case3 offset c t hne delimiter hd ih => exact List.forall_mem_cons.mpr ⟨rfl, ih⟩
  | case4 offset c t hne hd ih =>
    refine forall_mem_modifyHead (isCutFree · = true) (fun token h => ?_)
      fun token h => ih token (List.mem_of_mem_tail h)
    by_cases hc : c = '\\'
    · -- a backslash at the very end
      cases t with
      | nil =>
        obtain rfl := Option.some.inj h
        rw [hc]
        rfl
      | cons d t => exact absurd rfl (hne d t hc)
    · rw [List.singleton_append, isCutFree_cons hc, hd]
      exact ih token (List.mem_of_mem_head? h)

/-- The character of a delimiter; the end of the text has none. -/
def Delimiter.text : Delimiter → Text
  | .openBrace => ['{']
  | .closeBrace => ['}']
  | .semicolon => [';']
  | .endOfText => []

theorem text_of_ofChar? {c : Char} {delimiter : Delimiter}
    (h : Delimiter.ofChar? c = some delimiter) : delimiter.text = [c] := by
  rcases delimiter_cases h with rfl | rfl | rfl <;> (cases h; rfl)

/-- The text that pieces were cut from. -/
def uncut (pieces : List Token) : Text :=
  (pieces.map fun piece => piece.text ++ piece.delimiter.text).flatten

theorem uncut_cons (piece : Token) (pieces : List Token) :
    uncut (piece :: pieces) = piece.text ++ piece.delimiter.text ++ uncut pieces := rfl

theorem uncut_append (pieces more : List Token) :
    uncut (pieces ++ more) = uncut pieces ++ uncut more := by
  rw [uncut, List.map_append, List.flatten_append]
  rfl

theorem uncut_modifyHead (before : Text) {pieces : List Token} (h : pieces ≠ []) :
    uncut (pieces.modifyHead (.prepend before)) = before ++ uncut pieces := by
  cases pieces with
  | nil => exact absurd rfl h
  | cons first rest => simp [uncut_cons, Token.prepend]

/-- The pieces of a text and their delimiters, in a row, are the text. -/
theorem uncut_piecesFrom (offset : Nat) (t : Text) : uncut (piecesFrom offset t) = t := by
  fun_induction piecesFrom offset t with
  | case1 => rfl
  | case2 offset c t ih => rw [uncut_modifyHead _ (piecesFrom_ne_nil _ _), ih]; rfl
  | case3 offset c t hne delimiter hd ih =>
    rw [uncut_cons, ih, text_of_ofChar? hd]
    rfl
  | case4 offset c t hne hd ih => rw [uncut_modifyHead _ (piecesFrom_ne_nil _ _), ih]; rfl

/-- A piece in its place. -/
theorem eq_uncut_of_piecesFrom {offset : Nat} {t : Text} {before after : List Token} {piece : Token}
    (h : piecesFrom offset t = before ++ piece :: after) :
    t = uncut before ++ piece.text ++ (piece.delimiter.text ++ uncut after) := by
  have huncut := uncut_piecesFrom offset t
  rw [h, uncut_append, uncut_cons] at huncut
  simpa using huncut.symm

theorem isInfix_of_mem_piecesFrom {offset : Nat} {t : Text} {token : Token}
    (h : token ∈ piecesFrom offset t) : token.text <:+: t := by
  obtain ⟨before, after, hsplit⟩ := List.append_of_mem h
  exact ⟨uncut before, token.delimiter.text ++ uncut after, (eq_uncut_of_piecesFrom hsplit).symm⟩

/-- **The texts of the tokens of a normal form are legible.** -/
theorem legible_of_mem_tokens {text : Text} {token : Token}
    (h : token ∈ tokens (normalForm text)) : Legible token.text := by
  obtain ⟨piece, hpiece, rfl⟩ := List.mem_map.mp h
  have hneat := (neat_squeeze _).of_isInfix (isInfix_of_mem_piecesFrom hpiece)
  exact legible_trim hneat (isCutFree_of_mem_piecesFrom piece hpiece)

end StyleRules.Source
