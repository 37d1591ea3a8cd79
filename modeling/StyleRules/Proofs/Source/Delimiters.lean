import StyleRules.Proofs.Source.Escapes
import StyleRules.Proofs.Source.Faults
import StyleRules.Proofs.Source.Scanning

/-!
# Where a text is cut

A text is cut at every delimiter with an even number of backslashes before it, and nowhere else.
The pieces of a text take a backslash and the next character together, so what stands before a
character tells by `endsEscaped` whether it counts; parity says the same of the text alone.

* `Token.place`: the offset and the delimiter of a token;
* `pairwise_places`, `mem_places_iff`, `exists_places_eq`: where the pieces of a text end;
* `offset_of_piecesFrom`: the offset of a delimiter is the size of the text in front of it;
* `resume`, `slice_of_piecesFrom`: the text between two delimiters;
* **`tokens_between_delimiters`**: the tokens of a text by the places of its delimiters.
-/

namespace StyleRules.Source

/-! ## Places -/

/-- Where a token ends, and with what. -/
def Token.place (token : Token) : Nat × Delimiter := (token.offset, token.delimiter)

theorem map_place_modifyHead (front : Text) (pieces : List Token) :
    (pieces.modifyHead (.prepend front)).map Token.place = pieces.map Token.place := by
  cases pieces <;> rfl

theorem map_place_tokens (t : Text) :
    (tokens t).map Token.place = (piecesFrom 0 t).map Token.place := by
  rw [tokens, List.map_map]
  rfl

theorem ne_endOfText_of_delimiter {d : Char} {delimiter : Delimiter}
    (h : Delimiter.ofChar? d = some delimiter) : delimiter ≠ .endOfText := by
  rintro rfl
  rcases delimiter_cases h with rfl | rfl | rfl <;> cases h

theorem eq_iff_of_delimiter {c d : Char} {e delimiter : Delimiter}
    (he : Delimiter.ofChar? c = some e) (h : Delimiter.ofChar? d = some delimiter) :
    c = d ↔ e = delimiter := by
  constructor
  · rintro rfl
    exact Option.some.inj (he.symm.trans h)
  · rintro rfl
    exact List.head_eq_of_cons_eq ((text_of_ofChar? he).symm.trans (text_of_ofChar? h))

/-- Pieces end one behind the other, none of them before the text starts. -/
theorem pairwise_places (offset : Nat) (t : Text) :
    ((piecesFrom offset t).map Token.place).Pairwise (·.1 < ·.1) ∧
      ∀ place ∈ (piecesFrom offset t).map Token.place, offset ≤ place.1 := by
  fun_induction piecesFrom offset t with
  | case1 offset => simp [Token.place]
  | case2 offset c t ih =>
    rw [map_place_modifyHead]
    exact ⟨ih.1, fun place h => by have := ih.2 place h; omega⟩
  | case3 offset c t hne delimiter hd ih =>
    have hlt : ∀ place ∈ (piecesFrom (offset + c.utf8Size) t).map Token.place,
        offset < place.1 := by
      intro place h
      have hle := ih.2 place h
      have hpos := c.utf8Size_pos
      omega
    rw [List.map_cons, List.pairwise_cons, List.forall_mem_cons]
    exact ⟨⟨hlt, ih.1⟩, le_rfl, fun place h => (hlt place h).le⟩
  | case4 offset c t hne hd ih =>
    rw [map_place_modifyHead]
    exact ⟨ih.1, fun place h => by have := ih.2 place h; omega⟩

/-- A character occurs at the start of a text or further on. -/
theorem exists_split_cons {c d : Char} {t : Text} {p : Text → Prop} :
    (∃ before after, c :: t = before ++ d :: after ∧ p before) ↔
      (c = d ∧ p []) ∨ ∃ before after, t = before ++ d :: after ∧ p (c :: before) := by
  constructor
  · rintro ⟨before, after, h, hp⟩
    cases before with
    | nil => exact .inl ⟨(List.cons.inj h).1, hp⟩
    | cons e before =>
      obtain ⟨rfl, ht⟩ := List.cons.inj h
      exact .inr ⟨before, after, ht, hp⟩
  · rintro (⟨rfl, hp⟩ | ⟨before, after, rfl, hp⟩)
    · exact ⟨[], t, rfl, hp⟩
    · exact ⟨c :: before, after, rfl, hp⟩

/-- A character that does not hide the one behind it is no backslash, and hides nothing further
on. -/
theorem endsEscaped_cons_of_split {c d : Char} {t before after : Text}
    (hne : ∀ e rest, c = '\\' → t = e :: rest → False) (ht : t = before ++ d :: after) :
    endsEscaped (c :: before) = endsEscaped before := by
  refine endsEscaped_cons ?_ before
  rintro rfl
  cases before with
  | nil => exact hne d after rfl ht
  | cons e before => exact hne e _ rfl ht

/-- **Pieces end at the delimiters that nothing hides.** -/
theorem mem_places_iff {d : Char} {delimiter : Delimiter}
    (h : Delimiter.ofChar? d = some delimiter) (n offset : Nat) (t : Text) :
    (n, delimiter) ∈ (piecesFrom offset t).map Token.place ↔
      ∃ before after, t = before ++ d :: after ∧
        n = offset + before.utf8Size ∧ endsEscaped before = false := by
  fun_induction piecesFrom offset t with
  | case1 offset => simp [Token.place, ne_endOfText_of_delimiter h]
  | case2 offset c t ih =>
    have hd : '\\' ≠ d := by
      rintro rfl
      cases h
    -- neither the backslash nor the character behind it is a delimiter that nothing hides
    rw [map_place_modifyHead, ih, exists_split_cons, exists_split_cons]
    simp [hd, endsEscaped, Nat.add_assoc]
  | case3 offset c t hne e he ih =>
    have hc : c ≠ '\\' := by
      rintro rfl
      cases he
    have hhere : (n, delimiter) = Token.place ⟨[], e, offset⟩ ↔
        e = delimiter ∧ n = offset + Text.utf8Size [] ∧ endsEscaped [] = false := by
      constructor
      · intro heq
        obtain ⟨hn, hdelimiter⟩ := Prod.mk.inj heq
        exact ⟨hdelimiter.symm, hn, rfl⟩
      · rintro ⟨rfl, rfl, -⟩
        rfl
    rw [List.map_cons, List.mem_cons, ih, exists_split_cons, eq_iff_of_delimiter he h, hhere]
    simp only [endsEscaped_cons hc, Text.utf8Size_cons, Nat.add_assoc]
  | case4 offset c t hne hnone ih =>
    have hcd : c ≠ d := by
      rintro rfl
      cases hnone.symm.trans h
    rw [map_place_modifyHead, ih, exists_split_cons]
    simp only [hcd, false_and, false_or, Text.utf8Size_cons, Nat.add_assoc]
    refine exists_congr fun before => exists_congr fun after => and_congr_right fun ht => ?_
    rw [endsEscaped_cons_of_split hne ht]

/-- The last piece ends with the text, and no other one does. -/
theorem exists_places_eq (offset : Nat) (t : Text) :
    ∃ init, (piecesFrom offset t).map Token.place = init ++ [(offset + t.utf8Size, .endOfText)] ∧
      ∀ place ∈ init, place.2 ≠ .endOfText := by
  fun_induction piecesFrom offset t with
  | case1 offset => exact ⟨[], rfl, by simp⟩
  | case2 offset c t ih =>
    obtain ⟨init, hplaces, hinit⟩ := ih
    exact ⟨init, by rw [map_place_modifyHead, hplaces]; simp [Nat.add_assoc], hinit⟩
  | case3 offset c t hne delimiter hd ih =>
    obtain ⟨init, hplaces, hinit⟩ := ih
    refine ⟨(offset, delimiter) :: init, ?_,
      List.forall_mem_cons.mpr ⟨ne_endOfText_of_delimiter hd, hinit⟩⟩
    rw [List.map_cons, hplaces]
    simp [Token.place, Nat.add_assoc]
  | case4 offset c t hne hd ih =>
    obtain ⟨init, hplaces, hinit⟩ := ih
    exact ⟨init, by rw [map_place_modifyHead, hplaces]; simp [Nat.add_assoc], hinit⟩

/-! ## Texts between delimiters -/

section Pieces

variable {offset : Nat} {t : Text} {before after : List Token} {piece : Token}

/-- What stands before the delimiter of a piece is the text of the pieces up to there. -/
theorem offset_of_piecesFrom (h : piecesFrom offset t = before ++ piece :: after) :
    piece.offset = offset + (uncut before ++ piece.text).utf8Size := by
  obtain ⟨init, rest, -, hoffset, hinit⟩ := standsIn_of_piecesFrom h
  have hsplit := eq_uncut_of_piecesFrom hinit
  have hend : Delimiter.text .endOfText ++ uncut [] = [] := rfl
  rw [hend, List.append_nil] at hsplit
  rw [hoffset, hsplit]

/-- Only the last piece ends with the text. -/
theorem delimiter_ne_of_piecesFrom (h : piecesFrom offset t = before ++ piece :: after) :
    ∀ previous ∈ before, previous.delimiter ≠ .endOfText := by
  obtain ⟨init, hplaces, hinit⟩ := exists_places_eq offset t
  have hdrop := congrArg List.dropLast hplaces
  rw [List.dropLast_concat, h, List.map_append, List.dropLast_append_of_ne_nil (by simp)] at hdrop
  intro previous hprevious
  exact hinit previous.place (hdrop ▸ List.mem_append_left _ (List.mem_map_of_mem hprevious))

end Pieces

theorem utf8Size_text {delimiter : Delimiter} (h : delimiter ≠ .endOfText) :
    delimiter.text.utf8Size = 1 := by
  cases delimiter with
  | openBrace | closeBrace | semicolon => rfl
  | endOfText => exact absurd rfl h

/-- The number of bytes before the text that follows tokens: it starts behind the delimiter of the
last one. -/
def resume (before : List Token) : Nat :=
  match before.getLast? with
  | none => 0
  | some previous => previous.offset + 1

theorem resume_map_trim (before : List Token) : resume (before.map Token.trim) = resume before := by
  unfold resume
  rw [List.getLast?_map]
  cases before.getLast? <;> rfl

theorem resume_of_piecesFrom {t : Text} {before after : List Token} {piece : Token}
    (h : piecesFrom 0 t = before ++ piece :: after) : resume before = (uncut before).utf8Size := by
  rcases List.eq_nil_or_concat before with rfl | ⟨init, previous, rfl⟩
  · rfl
  rw [List.concat_eq_append] at h ⊢
  have hne := delimiter_ne_of_piecesFrom h previous (by simp)
  rw [List.append_assoc, List.singleton_append] at h
  have hoffset := offset_of_piecesFrom h
  have hresume : resume (init ++ [previous]) = previous.offset + 1 := by simp [resume]
  have huncut : uncut (init ++ [previous]) =
      uncut init ++ previous.text ++ previous.delimiter.text := by
    simp [uncut]
  rw [hresume, hoffset, huncut, Text.utf8Size_append _ previous.delimiter.text,
    utf8Size_text hne, Nat.zero_add]

/-- A piece is what stands between the delimiter before it and its own. -/
theorem slice_of_piecesFrom {t : Text} {before after : List Token} {piece : Token}
    (h : piecesFrom 0 t = before ++ piece :: after) :
    Text.slice (resume before) piece.offset t = piece.text := by
  rw [resume_of_piecesFrom h, offset_of_piecesFrom h, Nat.zero_add]
  conv_lhs => rw [eq_uncut_of_piecesFrom h]
  exact Text.slice_append _ _ _

/-! ## Tokens -/

theorem exists_token_iff {t : Text} {n : Nat} {delimiter : Delimiter} :
    (∃ token ∈ tokens t, token.offset = n ∧ token.delimiter = delimiter) ↔
      (n, delimiter) ∈ (piecesFrom 0 t).map Token.place := by
  rw [← map_place_tokens, List.mem_map]
  simp [Token.place]

theorem exists_char_of_delimiter {delimiter : Delimiter} (h : delimiter ≠ .endOfText) :
    ∃ d, delimiter.text = [d] ∧ Delimiter.ofChar? d = some delimiter := by
  cases delimiter with
  | openBrace => exact ⟨'{', rfl, rfl⟩
  | closeBrace => exact ⟨'}', rfl, rfl⟩
  | semicolon => exact ⟨';', rfl, rfl⟩
  | endOfText => exact absurd rfl h

/-- **The tokens of a text by the places of its delimiters.** A scan over the bytes of the text finds
them. Their offsets increase. There is a token for every delimiter that follows an even number of
backslashes, and for no other character. The text of a token is what stands between the delimiter
before it and its own, trimmed. The last token, and no other, ends with the text. -/
theorem tokens_between_delimiters (t : Text) :
    scan t = tokens t ∧
    ((tokens t).map Token.offset).Pairwise (· < ·) ∧
    (∀ n delimiter, delimiter ≠ .endOfText →
      ((∃ token ∈ tokens t, token.offset = n ∧ token.delimiter = delimiter) ↔
        ∃ before after, t = before ++ delimiter.text ++ after ∧ n = before.utf8Size ∧
          Even (backslashes before))) ∧
    (∀ before token after, tokens t = before ++ token :: after →
      token.text = (Text.slice (resume before) token.offset t).trim) ∧
    ∃ init last, tokens t = init ++ [last] ∧ last.delimiter = .endOfText ∧
      last.offset = t.utf8Size ∧ ∀ token ∈ init, token.delimiter ≠ .endOfText := by
  refine ⟨scan_eq_tokens t, ?_, fun n delimiter hne => ?_, fun before token after h => ?_, ?_⟩
  · have hincreasing := (pairwise_places 0 t).1
    rw [← map_place_tokens, List.pairwise_map] at hincreasing
    rwa [List.pairwise_map]
  · obtain ⟨d, htext, hd⟩ := exists_char_of_delimiter hne
    rw [exists_token_iff, mem_places_iff hd, htext]
    simp only [← Nat.not_odd_iff_even, ← endsEscaped_iff_odd, Bool.not_eq_true, Nat.zero_add,
      List.append_assoc, List.singleton_append]
  · obtain ⟨before, more, hp, rfl, hmore⟩ := List.map_eq_append_iff.mp h
    obtain ⟨piece, after, rfl, rfl, -⟩ := List.map_eq_cons_iff.mp hmore
    rw [resume_map_trim]
    exact congrArg Text.trim (slice_of_piecesFrom hp).symm
  · obtain ⟨places, hplaces, hinit⟩ := exists_places_eq 0 t
    rw [← map_place_tokens] at hplaces
    obtain ⟨init, rest, htokens, rfl, hrest⟩ := List.map_eq_append_iff.mp hplaces
    obtain ⟨last, rfl, hlast⟩ := List.map_eq_singleton_iff.mp hrest
    obtain ⟨hoffset, hend⟩ := Prod.mk.inj hlast
    refine ⟨init, last, htokens, hend, by rw [hoffset, Nat.zero_add], fun token htoken => ?_⟩
    exact hinit token.place (List.mem_map_of_mem htoken)

/-- Delimiters behind one, two and no backslashes, characters of two bytes, and a backslash at the
end. -/
def sampleEscapes : Text := "a\\\\\x7bé \\; b\x7d\\é; c\\".toList

theorem tokens_between_delimiters_sampleEscapes :
    scan sampleEscapes =
      [⟨"a\\\\".toList, .openBrace, 3⟩, ⟨"é \\; b".toList, .closeBrace, 11⟩,
        ⟨"\\é".toList, .semicolon, 15⟩, ⟨"c\\".toList, .endOfText, 19⟩] ∧
    (∃ before after, sampleEscapes = before ++ ['{'] ++ after ∧ 3 = before.utf8Size ∧
      Even (backslashes before)) ∧
    (¬ ∃ before after, sampleEscapes = before ++ [';'] ++ after ∧ 8 = before.utf8Size ∧
      Even (backslashes before)) ∧
    "é \\; b".toList = (Text.slice 4 11 sampleEscapes).trim := by
  obtain ⟨hscan, -, hplaces, htexts, -⟩ := tokens_between_delimiters sampleEscapes
  refine ⟨hscan.trans (by decide), ?_, ?_, ?_⟩
  · exact (hplaces 3 .openBrace (by decide)).mp (by decide)
  · exact fun h => absurd ((hplaces 8 .semicolon (by decide)).mpr h) (by decide)
  · exact htexts [⟨"a\\\\".toList, .openBrace, 3⟩] ⟨"é \\; b".toList, .closeBrace, 11⟩
      [⟨"\\é".toList, .semicolon, 15⟩, ⟨"c\\".toList, .endOfText, 19⟩] (by decide)

end StyleRules.Source
