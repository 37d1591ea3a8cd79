import StyleRules.Proofs.Source.Scoping
import StyleRules.Proofs.Text.Spacing
import StyleRules.Source.Normal

/-!
# Cutting a text into tokens

Normal form and tokens are taken piece by piece: a delimiter stops every pass.

* `squeeze`: what the normal form does to a text without comments;
* `isCutFree`, `endsEscaped`: whether a text holds a delimiter, and whether it hides the next
  character;
* `cuts`, `tokenText`: the texts and delimiters of the tokens of a text;
* **`cuts_piece`**, **`cuts_header`**: a piece of text before a delimiter is one token, whatever
  follows;
* `Legible`: a text that comes out of its token as it went in;
* `Item.cuts`, `laid_of_cuts`: the texts and delimiters that lay out items.
-/

namespace StyleRules.Source

open Text (isBlank startsBlank endsBlank Flush Spaced)

/-! ## Squeezing -/

/-- The normal form of a text without comments. -/
def squeeze (t : Text) : Text := tightenCommas (Text.collapse t)

theorem tightenCommas_append (s : Text) {t : Text} (ht : t.head? ≠ some ',') :
    tightenCommas (s ++ t) = tightenCommas s ++ tightenCommas t := by
  induction s with
  | nil => rfl
  | cons c s ih =>
    have hh : (s ++ t).head? = some ',' ↔ s.head? = some ',' := by
      cases s <;> simp [ht]
    simp only [List.cons_append, tightenCommas, hh, ih]
    split_ifs <;> rfl

theorem tightenCommas_space (t : Text) :
    tightenCommas (' ' :: t) = tightenCommas t ∨
      tightenCommas (' ' :: t) = ' ' :: tightenCommas t := by
  rw [tightenCommas]
  split_ifs
  · exact .inl rfl
  · exact .inr rfl

theorem tightenCommas_of_not_mem {t : Text} (h : ' ' ∉ t) : tightenCommas t = t := by
  induction t with
  | nil => rfl
  | cons c t ih =>
    rw [List.mem_cons, not_or] at h
    rw [tightenCommas, if_neg (fun hc => h.1 hc.1.symm), ih h.2]

theorem squeeze_append {s t : Text} (h : endsBlank s = false ∨ startsBlank t = false)
    (ht : (Text.collapse t).head? ≠ some ',') : squeeze (s ++ t) = squeeze s ++ squeeze t := by
  unfold squeeze
  rw [Text.collapse_append h, tightenCommas_append _ ht]

/-- A delimiter is neither blank nor comma nor backslash. -/
theorem delimiter_cases {d : Char} {delimiter : Delimiter}
    (h : Delimiter.ofChar? d = some delimiter) : d = '{' ∨ d = '}' ∨ d = ';' := by
  unfold Delimiter.ofChar? at h
  split_ifs at h with h1 h2 h3
  · exact .inl h1
  · exact .inr (.inl h2)
  · exact .inr (.inr h3)

theorem isBlank_of_delimiter {d : Char} {delimiter : Delimiter}
    (h : Delimiter.ofChar? d = some delimiter) : isBlank d = false := by
  rcases delimiter_cases h with rfl | rfl | rfl <;> decide

theorem squeeze_append_delimiter {d : Char} {delimiter : Delimiter}
    (hd : Delimiter.ofChar? d = some delimiter) (s t : Text) :
    squeeze (s ++ d :: t) = squeeze s ++ d :: squeeze t := by
  have hb := isBlank_of_delimiter hd
  have hc : Text.collapse (d :: t) = d :: Text.collapse t := by rw [Text.collapse, hb]; rfl
  have hcomma : d ≠ ',' ∧ d ≠ ' ' := by rcases delimiter_cases hd with rfl | rfl | rfl <;> decide
  rw [squeeze_append (.inr (show startsBlank (d :: t) = false from hb)) (by simp [hc, hcomma.1])]
  congr 1
  rw [squeeze, hc, tightenCommas, if_neg (fun h => hcomma.2 h.1)]
  rfl

/-- Blanks in front of a text become at most one space. -/
theorem squeeze_lead {lead : Text} (hl : ∀ c ∈ lead, isBlank c = true) (t : Text) :
    squeeze (lead ++ t) = squeeze t ∨ squeeze (lead ++ t) = ' ' :: squeeze t := by
  unfold squeeze
  rcases Text.collapse_lead hl t with h | h <;> rw [h]
  · exact .inl rfl
  · exact tightenCommas_space _

theorem squeeze_space (t : Text) :
    squeeze (' ' :: t) = squeeze t ∨ squeeze (' ' :: t) = ' ' :: squeeze t := by
  have hl : ∀ c ∈ [' '], isBlank c = true := by simp
  exact squeeze_lead hl t

/-- A space behind a text is the last one of it, or stays. -/
theorem squeeze_concat_space (t : Text) :
    squeeze (t ++ [' ']) = if endsBlank t then squeeze t else squeeze t ++ [' '] := by
  split_ifs with he
  · rw [squeeze, Text.collapse_concat_of_endsBlank he rfl]
    rfl
  · rw [Bool.not_eq_true] at he
    rw [squeeze_append (.inl he) (by decide)]
    rfl

/-! ## Escapes -/

/-- Whether no delimiter of the text ends a token. -/
def isCutFree : Text → Bool
  | [] => true
  | '\\' :: _ :: t => isCutFree t
  | c :: t => (Delimiter.ofChar? c).isNone && isCutFree t

/-- Whether the text ends with a backslash that hides the next character. -/
def endsEscaped : Text → Bool
  | [] => false
  | ['\\'] => true
  | '\\' :: _ :: t => endsEscaped t
  | _ :: t => endsEscaped t

theorem isCutFree_cons {c : Char} (hc : c ≠ '\\') (t : Text) :
    isCutFree (c :: t) = ((Delimiter.ofChar? c).isNone && isCutFree t) := by
  rw [isCutFree]
  intro d t' h
  exact absurd h hc

theorem endsEscaped_cons {c : Char} (hc : c ≠ '\\') (t : Text) :
    endsEscaped (c :: t) = endsEscaped t := by
  rw [endsEscaped]
  · intro h _
    exact hc h
  · intro d t' h
    exact absurd h hc

/-- A space closes every escape. -/
theorem isCutFree_concat_space {t : Text} (h : isCutFree t = true) :
    isCutFree (t ++ [' ']) = true ∧ endsEscaped (t ++ [' ']) = false := by
  fun_induction isCutFree t with
  | case1 => decide
  | case2 c t ih => simpa [isCutFree, endsEscaped] using ih h
  | case3 c t hne ih =>
    rw [Bool.and_eq_true] at h
    by_cases hc : c = '\\'
    · subst hc
      cases t with
      | nil => decide
      | cons d t => exact (hne d t rfl rfl).elim
    · rw [List.cons_append, isCutFree_cons hc, endsEscaped_cons hc, h.1]
      exact ih h.2

theorem isCutFree_append_of_plain {s : Text}
    (hs : ∀ c ∈ s, c ≠ '\\' ∧ Delimiter.ofChar? c = none) (t : Text) :
    isCutFree (s ++ t) = isCutFree t ∧ endsEscaped (s ++ t) = endsEscaped t := by
  induction s with
  | nil => exact ⟨rfl, rfl⟩
  | cons c s ih =>
    obtain ⟨hc, hd⟩ := hs c List.mem_cons_self
    rw [List.cons_append, isCutFree_cons hc, endsEscaped_cons hc, hd]
    exact ih fun d hd => hs d (List.mem_cons_of_mem c hd)

/-! ## Cuts -/

/-- The text and the delimiter of a token. -/
def Token.cut (token : Token) : Text × Delimiter := (token.text, token.delimiter)

/-- The texts and delimiters of the tokens of a text. -/
def cuts (t : Text) : List (Text × Delimiter) := (tokens t).map Token.cut

theorem map_cut_modifyHead (p : Text) (tokens : List Token) :
    (tokens.modifyHead (.prepend p)).map Token.cut =
      (tokens.map Token.cut).modifyHead fun cut => (p ++ cut.1, cut.2) := by
  cases tokens <;> rfl

/-- Where a text starts is only seen in the offsets. -/
theorem map_cut_piecesFrom (offset other : Nat) (t : Text) :
    (piecesFrom offset t).map Token.cut = (piecesFrom other t).map Token.cut := by
  fun_induction piecesFrom offset t generalizing other with
  | case1 => rfl
  | case2 offset c t ih => rw [piecesFrom, map_cut_modifyHead, map_cut_modifyHead, ih]
  | case3 offset c t hne delimiter hd ih =>
    rw [piecesFrom.eq_3 _ _ _ hne]
    simp only [hd, List.map_cons, ih (other + c.utf8Size)]
    rfl
  | case4 offset c t hne hd ih =>
    rw [piecesFrom.eq_3 _ _ _ hne]
    simp only [hd, map_cut_modifyHead, ih (other + c.utf8Size)]

theorem piecesFrom_cons {c : Char} (hc : c ≠ '\\') (offset : Nat) (t : Text) :
    piecesFrom offset (c :: t) = match Delimiter.ofChar? c with
      | some delimiter => ⟨[], delimiter, offset⟩ :: piecesFrom (offset + c.utf8Size) t
      | none => (piecesFrom (offset + c.utf8Size) t).modifyHead (.prepend [c]) :=
  piecesFrom.eq_3 _ _ _ fun _ _ h => absurd h hc

/-- A text without cuts is the text of one token. -/
theorem piecesFrom_append {s : Text} (hs : isCutFree s = true) (he : endsEscaped s = false)
    {d : Char} {delimiter : Delimiter} (hd : Delimiter.ofChar? d = some delimiter) (offset : Nat)
    (t : Text) :
    piecesFrom offset (s ++ d :: t) = ⟨s, delimiter, offset + s.utf8Size⟩ ::
      piecesFrom (offset + s.utf8Size + d.utf8Size) t := by
  fun_induction isCutFree s generalizing offset with
  | case1 =>
    have hne : d ≠ '\\' := by rcases delimiter_cases hd with rfl | rfl | rfl <;> decide
    rw [List.nil_append, piecesFrom_cons hne, hd]
    rfl
  | case2 c s ih =>
    rw [endsEscaped] at he
    rw [List.cons_append, List.cons_append, piecesFrom, ih hs he]
    simp [Token.prepend, Nat.add_assoc]
  | case3 c s hne ih =>
    have hc : c ≠ '\\' := by
      rintro rfl
      cases s with
      | nil => cases he
      | cons e s => exact hne e s rfl rfl
    rw [Bool.and_eq_true, Option.isNone_iff_eq_none] at hs
    rw [endsEscaped_cons hc] at he
    rw [List.cons_append, piecesFrom_cons hc, hs.1, ih hs.2 he]
    simp [Token.prepend, Nat.add_assoc]

theorem cuts_eq (offset : Nat) (t : Text) :
    cuts t = ((piecesFrom offset t).map Token.cut).map fun cut => (cut.1.trim, cut.2) := by
  rw [map_cut_piecesFrom offset 0, cuts, tokens, List.map_map, List.map_map]
  rfl

theorem cuts_append {s : Text} (hs : isCutFree s = true) (he : endsEscaped s = false) {d : Char}
    {delimiter : Delimiter} (hd : Delimiter.ofChar? d = some delimiter) (t : Text) :
    cuts (s ++ d :: t) = (s.trim, delimiter) :: cuts t := by
  rw [cuts_eq 0, piecesFrom_append hs he hd, cuts_eq (0 + s.utf8Size + d.utf8Size) t]
  rfl

/-- A piece of text before a delimiter is one token, whatever follows. -/
theorem cuts_squeeze {s : Text} (hs : isCutFree (squeeze s) = true)
    (he : endsEscaped (squeeze s) = false) {d : Char} {delimiter : Delimiter}
    (hd : Delimiter.ofChar? d = some delimiter) (t : Text) :
    cuts (squeeze (s ++ d :: t)) = ((squeeze s).trim, delimiter) :: cuts (squeeze t) := by
  rw [squeeze_append_delimiter hd, cuts_append hs he hd]

/-! ## Pieces of text -/

/-- The text of the token that a piece of text becomes. -/
def tokenText (t : Text) : Text := (squeeze t).trim

/-- A space in front of a text is no cut. -/
theorem isCutFree_lead {s t : Text} (h : s = t ∨ s = ' ' :: t) :
    isCutFree s = isCutFree t ∧ endsEscaped s = endsEscaped t := by
  rcases h with rfl | rfl
  · exact ⟨rfl, rfl⟩
  · exact isCutFree_append_of_plain (s := [' ']) (by simp [Delimiter.ofChar?]) t

theorem trim_lead {s t : Text} (h : s = t ∨ s = ' ' :: t) : s.trim = t.trim := by
  rcases h with rfl | rfl
  · rfl
  · rw [Text.trim, ← List.singleton_append, Text.trimLeft_append_of_blank (by simp)]
    rfl

/-- **A piece of text before a delimiter is one token**, whatever blanks precede it. -/
theorem cuts_piece {lead s : Text} (hl : ∀ c ∈ lead, isBlank c = true)
    (hs : isCutFree (squeeze s) = true) (he : endsEscaped (squeeze s) = false) {d : Char}
    {delimiter : Delimiter} (hd : Delimiter.ofChar? d = some delimiter) (t : Text) :
    cuts (squeeze (lead ++ s ++ d :: t)) = (tokenText s, delimiter) :: cuts (squeeze t) := by
  have h := squeeze_lead hl s
  obtain ⟨h1, h2⟩ := isCutFree_lead h
  rw [cuts_squeeze (h1.trans hs) (h2.trans he) hd, trim_lead h]
  rfl

/-- Only a backslash at the end hides the next character. -/
theorem getLast?_of_endsEscaped {t : Text} (h : endsEscaped t = true) :
    t.getLast? = some '\\' := by
  fun_induction endsEscaped t with
  | case1 => cases h
  | case2 => rfl
  | case3 c t ih =>
    have := ih h
    cases t with
    | nil => cases h
    | cons d t => simpa using this
  | case4 c t _ _ ih =>
    have := ih h
    cases t with
    | nil => cases h
    | cons d t => simpa using this

/-- A blank at the end hides nothing. -/
theorem not_endsEscaped_tightenCommas {t : Text} (h : endsBlank t = true) :
    endsEscaped (tightenCommas t) = false := by
  rcases List.eq_nil_or_concat t with rfl | ⟨init, c, rfl⟩
  · rfl
  · rw [List.concat_eq_append] at h ⊢
    rw [Text.endsBlank_concat] at h
    have hcomma : c ≠ ',' := by
      rintro rfl
      cases h
    have hlast : tightenCommas [c] = [c] := by simp [tightenCommas]
    rw [tightenCommas_append init (by simpa using hcomma), hlast, ← Bool.not_eq_true]
    intro hesc
    have := getLast?_of_endsEscaped hesc
    rw [List.getLast?_concat] at this
    obtain rfl := Option.some.inj this
    cases h

/-- **A header is one token.** A backslash at its end hides only the space before the brace. -/
theorem cuts_header {lead s : Text} (hl : ∀ c ∈ lead, isBlank c = true)
    (hs : isCutFree (squeeze s) = true) (t : Text) :
    cuts (squeeze (lead ++ s ++ ' ' :: '{' :: t)) =
      (tokenText s, .openBrace) :: cuts (squeeze t) := by
  have hpiece : lead ++ s ++ ' ' :: '{' :: t = lead ++ (s ++ [' ']) ++ '{' :: t := by simp
  have hspace := squeeze_concat_space s
  rw [hpiece]
  split_ifs at hspace with he
  · have hesc : endsEscaped (squeeze s) = false :=
      not_endsEscaped_tightenCommas (Text.endsBlank_collapse he)
    rw [cuts_piece hl (hspace ▸ hs) (hspace ▸ hesc) rfl, tokenText, hspace]
    rfl
  · obtain ⟨hcut, hesc⟩ := isCutFree_concat_space hs
    rw [cuts_piece hl (hspace ▸ hcut) (hspace ▸ hesc) rfl, tokenText, hspace,
      ← Text.trimLeft_trimRight, Text.trimRight_append_of_blank (by simp), Text.trimLeft_trimRight]
    rfl

/-- Blanks before a closing brace are no text. -/
theorem cuts_close {lead : Text} (hl : ∀ c ∈ lead, isBlank c = true) (t : Text) :
    cuts (squeeze (lead ++ '}' :: t)) = ([], .closeBrace) :: cuts (squeeze t) := by
  have hd : Delimiter.ofChar? '}' = some .closeBrace := rfl
  have h := cuts_piece (s := []) hl rfl rfl hd t
  rwa [List.append_nil] at h

/-- Blanks at the end of a text are no text. -/
theorem cuts_end {lead : Text} (hl : ∀ c ∈ lead, isBlank c = true) :
    cuts (squeeze lead) = [([], .endOfText)] := by
  have h := squeeze_lead hl []
  rw [List.append_nil] at h
  rcases h with h | h <;> rw [h] <;> rfl

/-! ## Legible texts -/

/-- A text that comes out of its token as it went in. -/
structure Legible (t : Text) : Prop where
  spaced : Spaced t
  tighten_eq : tightenCommas t = t
  cutFree : isCutFree t = true

instance (t : Text) : Decidable (Legible t) :=
  decidable_of_iff ((Flush t ∧ endsBlank t = false) ∧ tightenCommas t = t ∧ isCutFree t = true)
    ⟨fun h => ⟨⟨h.1.1, h.1.2⟩, h.2.1, h.2.2⟩,
      fun h => ⟨⟨h.spaced.toFlush, h.spaced.ends⟩, h.tighten_eq, h.cutFree⟩⟩

theorem Legible.squeeze_eq {t : Text} (h : Legible t) : squeeze t = t := by
  rw [squeeze, h.spaced.collapse_eq, h.tighten_eq]

theorem Legible.tokenText_eq {t : Text} (h : Legible t) : tokenText t = t := by
  rw [tokenText, h.squeeze_eq, Text.trim, Text.trimLeft_of_not_startsBlank h.spaced.starts,
    Text.trimRight_of_not_endsBlank h.spaced.ends]

theorem isCutFree_tightenCommas (t : Text) : isCutFree (tightenCommas t) = isCutFree t := by
  fun_induction isCutFree t with
  | case1 => rfl
  | case2 c t ih =>
    have hslash : tightenCommas ('\\' :: c :: t) = '\\' :: tightenCommas (c :: t) := by
      rw [tightenCommas, if_neg (by simp)]
    rw [hslash, tightenCommas]
    split_ifs with hc
    · -- the backslash hides the comma in place of the space
      obtain ⟨t', rfl⟩ : ∃ t', t = ',' :: t' := List.head?_eq_some_iff.mp hc.2
      rw [← ih]
      have hcomma : tightenCommas (',' :: t') = ',' :: tightenCommas t' := by
        rw [tightenCommas, if_neg (by simp)]
      rw [hcomma, isCutFree, isCutFree_cons (by decide)]
      rfl
    · rw [isCutFree, ih]
  | case3 c t hne ih =>
    by_cases hc : c = '\\'
    · cases t with
      | nil => rw [hc]; rfl
      | cons d t => exact (hne d t hc rfl).elim
    · rw [tightenCommas]
      split_ifs with hspace
      · rw [ih, hspace.1]
        rfl
      · rw [isCutFree_cons hc, ih]

/-- Squeezing a text with single spaces takes no cut out of it. -/
theorem isCutFree_squeeze {t : Text} (h : Text.collapse t = t) :
    isCutFree (squeeze t) = isCutFree t := by
  rw [squeeze, h, isCutFree_tightenCommas]

/-! ## The cuts of items -/

mutual

/-- The texts and delimiters that lay out an item. -/
def Item.cuts : Item → List (Text × Delimiter)
  | .statement text => [(text, .semicolon)]
  | .block header body => (header, .openBrace) :: Item.allCuts body ++ [([], .closeBrace)]

/-- The texts and delimiters that lay out items. -/
def Item.allCuts : List Item → List (Text × Delimiter)
  | [] => []
  | item :: items => item.cuts ++ Item.allCuts items

end

/-- Tokens with the cuts of items lay them out, and what follows them lays out the rest. -/
theorem laid_of_cuts (items : List Item) {others : List Item} {tokens more : List Token}
    (h : tokens.map Token.cut = Item.allCuts items) (hm : Laid more others) :
    Laid (tokens ++ more) (items ++ others) := by
  match items with
  | [] =>
    rw [Item.allCuts, List.map_eq_nil_iff] at h
    subst h
    exact hm
  | .statement text :: items =>
    rw [Item.allCuts, Item.cuts, List.singleton_append, List.map_eq_cons_iff] at h
    obtain ⟨token, tokens, rfl, hcut, hrest⟩ := h
    obtain ⟨rfl, hd⟩ := Prod.mk.inj hcut
    exact .statement (.inl hd) (laid_of_cuts items hrest hm)
  | .block header body :: items =>
    rw [Item.allCuts, Item.cuts, List.cons_append, List.cons_append, List.append_assoc,
      List.map_eq_cons_iff] at h
    obtain ⟨opening, tokens, rfl, hcut, htail⟩ := h
    obtain ⟨rfl, hopen⟩ := Prod.mk.inj hcut
    obtain ⟨inner, tokens, rfl, hinner, htail⟩ := List.map_eq_append_iff.mp htail
    rw [List.singleton_append, List.map_eq_cons_iff] at htail
    obtain ⟨closing, tokens, rfl, hcut, hrest⟩ := htail
    have hbody := laid_of_cuts body hinner .nil
    rw [List.append_nil, List.append_nil] at hbody
    have := Laid.block hopen hbody (Prod.mk.inj hcut).2 (laid_of_cuts items hrest hm)
    simpa using this

end StyleRules.Source
