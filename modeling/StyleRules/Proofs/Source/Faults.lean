import StyleRules.Proofs.Source.Legible
import StyleRules.Proofs.Source.Stacks

/-!
# Faults

A text is refused for its first fault: a closing brace that closes nothing, or a block header that
is no at-rule, no selector and no property block; or, if it has none, for a block that stays open.

* `depth`, `Fault`: the number of open blocks, and what a token is refused for;
* `Faultless`, `FirstFault`: no token is refused, and the first one that is;
* `exists_init_of_tokens`: where the delimiter of a token stands;
* `Builder.run_eq_error_iff`: a run is refused for its first fault;
* **`parse_eq_ok_or_error_iff`**: which texts are read, and for what the others are refused.
-/

namespace StyleRules.Source

/-- The number of blocks that are open after tokens. -/
def depth (tokens : List Token) : Nat := opens tokens - closes tokens

/-- What a token is refused for that comes after others. -/
inductive Fault (before : List Token) (token : Token) : Error → Prop
  | unmatchedClose : token.delimiter = .closeBrace → depth before = 0 →
      Fault before token (.unmatchedClose token.offset)
  /-- The header of a block that is no at-rule, no selector and no property block. -/
  | unknownPseudo {pseudo : Text} : token.delimiter = .openBrace → isAtRule token.text = false →
      Selector.unknownPseudo? token.text = some pseudo → opensProperties token.text = false →
      Fault before token (.unknownPseudo token.text pseudo)

/-- No token is refused. -/
def Faultless (tokens : List Token) : Prop :=
  ∀ before token after, tokens = before ++ token :: after → ∀ e, ¬ Fault before token e

/-- What the first token is refused for that is. -/
def FirstFault (tokens : List Token) (e : Error) : Prop :=
  ∃ before token after, tokens = before ++ token :: after ∧ Faultless before ∧
    Fault before token e

theorem FirstFault.append {tokens : List Token} {e : Error} (h : FirstFault tokens e)
    (more : List Token) : FirstFault (tokens ++ more) e := by
  obtain ⟨before, token, after, rfl, hbefore, hfault⟩ := h
  exact ⟨before, token, after ++ more, by simp, hbefore, hfault⟩

theorem not_faultless_of_firstFault {tokens : List Token} {e : Error} (h : FirstFault tokens e) :
    ¬ Faultless tokens := by
  obtain ⟨before, token, after, hsplit, -, hfault⟩ := h
  exact fun hnone => hnone before token after hsplit e hfault

/-! ## The place of a delimiter -/

/-- A delimiter stands in a text where its token ends: what precedes it has the same tokens, and
there the token ends with the text. -/
def StandsIn (offset : Nat) (t : Text) (before : List Token) (token : Token) : Prop :=
  ∃ init rest, t = init ++ token.delimiter.text ++ rest ∧ token.offset = offset + init.utf8Size ∧
    piecesFrom offset init = before ++ [{ token with delimiter := .endOfText }]

/-- Characters in front of a text that belong to its first piece. -/
theorem StandsIn.prepend {offset next : Nat} (front : Text) {t : Text}
    (hnext : next = offset + front.utf8Size)
    (hfront : ∀ init, init <+: t →
      piecesFrom offset (front ++ init) = (piecesFrom next init).modifyHead (.prepend front))
    (ih : ∀ {before after : List Token} {token : Token},
      piecesFrom next t = before ++ token :: after → StandsIn next t before token)
    {before after : List Token} {token : Token}
    (h : (piecesFrom next t).modifyHead (.prepend front) = before ++ token :: after) :
    StandsIn offset (front ++ t) before token := by
  obtain ⟨first, pieces, hp⟩ := List.exists_cons_of_ne_nil (piecesFrom_ne_nil next t)
  rw [hp, List.modifyHead_cons] at h
  cases before with
  | nil =>
    obtain ⟨rfl, rfl⟩ := List.cons.inj h
    replace hp : piecesFrom next t = [] ++ first :: pieces := hp
    obtain ⟨init, rest, rfl, hoffset, hinit⟩ := ih hp
    refine ⟨front ++ init, rest, by simp [Token.prepend], ?_, ?_⟩
    · rw [Token.prepend, hoffset, hnext, Text.utf8Size_append, Nat.add_assoc]
    · rw [hfront init (by simp [List.append_assoc]), hinit]
      rfl
  | cons head before =>
    obtain ⟨rfl, rfl⟩ := List.cons.inj h
    replace hp : piecesFrom next t = (first :: before) ++ token :: after := hp
    obtain ⟨init, rest, rfl, hoffset, hinit⟩ := ih hp
    refine ⟨front ++ init, rest, by simp, ?_, ?_⟩
    · rw [hoffset, hnext, Text.utf8Size_append, Nat.add_assoc]
    · rw [hfront init (by simp [List.append_assoc]), hinit]
      rfl

theorem standsIn_of_piecesFrom {offset : Nat} {t : Text} {before after : List Token}
    {token : Token} (h : piecesFrom offset t = before ++ token :: after) :
    StandsIn offset t before token := by
  fun_induction piecesFrom offset t generalizing before token after with
  | case1 offset =>
    obtain ⟨rfl, rfl, -⟩ : before = [] ∧ token = ⟨[], .endOfText, offset⟩ ∧ after = [] := by
      cases before <;> simp_all
    exact ⟨[], [], rfl, rfl, rfl⟩
  | case2 offset c t ih =>
    exact StandsIn.prepend ['\\', c] (by simp [Nat.add_assoc]) (fun _ _ => rfl) ih h
  | case3 offset c t hne delimiter hd ih =>
    have hc : c ≠ '\\' := by
      rintro rfl
      cases hd
    cases before with
    | nil =>
      obtain ⟨rfl, rfl⟩ := List.cons.inj h
      exact ⟨[], t, by simp [text_of_ofChar? hd], rfl, rfl⟩
    | cons first before =>
      obtain ⟨rfl, hrest⟩ := List.cons.inj h
      obtain ⟨init, rest, rfl, hoffset, hinit⟩ := ih hrest
      refine ⟨c :: init, rest, by simp, ?_, ?_⟩
      · rw [hoffset, Text.utf8Size_cons, Nat.add_assoc]
      · rw [piecesFrom_cons hc, hd, hinit]
        rfl
  | case4 offset c t hne hd ih =>
    refine StandsIn.prepend [c] (by simp) (fun init hinit => ?_) ih h
    rw [List.singleton_append, piecesFrom.eq_3, hd]
    rintro d init' rfl rfl
    -- a backslash that ends the text has nothing behind it
    obtain ⟨rest, rfl⟩ := hinit
    exact hne d (init' ++ rest) rfl rfl

/-- The delimiter of a token stands in the text, at its offset in bytes. -/
theorem exists_init_of_tokens {t : Text} {before after : List Token} {token : Token}
    (h : tokens t = before ++ token :: after) :
    ∃ init rest, t = init ++ token.delimiter.text ++ rest ∧ token.offset = init.utf8Size ∧
      tokens init = before ++ [{ token with delimiter := .endOfText }] := by
  obtain ⟨before, more, hp, rfl, hmore⟩ := List.map_eq_append_iff.mp h
  obtain ⟨piece, after, rfl, rfl, -⟩ := List.map_eq_cons_iff.mp hmore
  obtain ⟨init, rest, ht, hoffset, hinit⟩ := standsIn_of_piecesFrom hp
  refine ⟨init, rest, ht, by simpa [Token.trim] using hoffset, ?_⟩
  rw [tokens, hinit, List.map_append]
  rfl

/-! ## Runs -/

namespace Builder

/-- A token opens or closes as many blocks as its delimiter says. -/
theorem length_blocks_feed {b next : Builder} {token : Token} (h : b.feed token = .ok next) :
    next.blocks.length + closes [token] = b.blocks.length + opens [token] := by
  unfold feed at h
  rw [opens_cons, closes_cons]
  rcases hd : token.delimiter with _ | _ | _ | _ <;> simp only [hd] at h
  · rcases openBlock_cases h with rfl | h | h
    · simp [openAtRule]
    · unfold openSelector at h
      split at h
      · cases h
      · obtain rfl := Except.ok.inj h
        simp
    · unfold openProperties at h
      split at h
      · cases h
      · obtain rfl := Except.ok.inj h
        simp [writeNonEmpty_eq]
  · unfold closeBlock at h
    split at h
    · cases h
    · rename_i kind blocks hblocks
      obtain rfl := Except.ok.inj h
      simp [hblocks]
  all_goals
    obtain rfl := Except.ok.inj h
    simp [statement_eq]

theorem length_blocks_run {b last : Builder} {tokens : List Token} (h : b.run tokens = .ok last) :
    last.blocks.length + closes tokens = b.blocks.length + opens tokens := by
  induction tokens generalizing b with
  | nil =>
    obtain rfl := Except.ok.inj h
    rfl
  | cons token tokens ih =>
    obtain ⟨next, hf, h⟩ := exists_feed_of_run h
    have hnext := length_blocks_feed hf
    have hrest := ih h
    rw [← List.singleton_append, opens_append, closes_append]
    omega

theorem length_blocks_eq_depth {tokens : List Token} {b : Builder} (h : run {} tokens = .ok b) :
    b.blocks.length = depth tokens := by
  have := length_blocks_run h
  rw [depth]
  simp at this
  omega

section Faults

variable {before : List Token} {token : Token} {b : Builder} {e : Error}

theorem feed_of_fault (hb : b.blocks.length = depth before) (h : Fault before token e) :
    b.feed token = .error e := by
  cases h with
  | unmatchedClose hd h0 =>
    have hnil : b.blocks = [] := List.eq_nil_of_length_eq_zero (hb.trans h0)
    simp [feed, hd, closeBlock, hnil]
  | unknownPseudo hd hat hu hp => simp [feed, hd, openBlock, hat, hu, hp]

theorem fault_of_feed (ha : b.Aligned) (hb : b.blocks.length = depth before)
    (h : b.feed token = .error e) : Fault before token e := by
  unfold feed at h
  rcases hd : token.delimiter with _ | _ | _ | _ <;> simp only [hd] at h
  · by_cases hl : isLegalHeader token.text = true
    · obtain ⟨inner, hi, -⟩ := openBlock_of_legal ha hl
      rw [hi] at h
      cases h
    · simp only [isLegalHeader, Selector.isValid, Bool.or_eq_true, not_or, Bool.not_eq_true,
        Option.isNone_eq_false_iff, Option.isSome_iff_exists] at hl
      obtain ⟨⟨hat, pseudo, hu⟩, hp⟩ := hl
      simp only [openBlock, hat, hu, hp, Bool.false_eq_true, if_false] at h
      obtain rfl := Except.error.inj h
      exact .unknownPseudo hd hat hu hp
  · unfold closeBlock at h
    split at h
    · rename_i hnil
      obtain rfl := Except.error.inj h
      exact .unmatchedClose hd (by rw [← hb, hnil]; rfl)
    · cases h
  all_goals cases h

theorem faultless_of_run {tokens : List Token} (h : run {} tokens = .ok b) : Faultless tokens := by
  rintro before token after rfl e hfault
  rw [run_append] at h
  rcases hr : run {} before with e' | middle
  · rw [hr] at h
    cases h
  · rw [hr] at h
    replace h : middle.run (token :: after) = .ok b := h
    rw [run_cons, feed_of_fault (length_blocks_eq_depth hr) hfault] at h
    cases h

theorem firstFault_of_run {tokens : List Token} (h : run {} tokens = .error e) :
    FirstFault tokens e := by
  induction tokens using List.reverseRecOn with
  | nil => cases h
  | append_singleton tokens token ih =>
    rw [run_append] at h
    rcases hr : run {} tokens with e' | middle
    · rw [hr] at h
      obtain rfl : e' = e := Except.error.inj h
      exact (ih hr).append [token]
    · rw [hr] at h
      replace h : middle.run [token] = .error e := h
      rw [run_cons] at h
      rcases hf : middle.feed token with e' | next
      · rw [hf] at h
        obtain rfl : e' = e := Except.error.inj h
        exact ⟨tokens, token, [], rfl, faultless_of_run hr,
          fault_of_feed (stacked_init.run hr).toAligned (length_blocks_eq_depth hr) hf⟩
      · rw [hf] at h
        cases h

/-- A run is refused for its first fault. -/
theorem run_eq_error_iff {tokens : List Token} :
    run {} tokens = .error e ↔ FirstFault tokens e := by
  refine ⟨firstFault_of_run, ?_⟩
  rintro ⟨before, token, after, rfl, hbefore, hfault⟩
  rcases hr : run {} before with e' | b
  · exact absurd hbefore (not_faultless_of_firstFault (firstFault_of_run hr))
  · rw [run_append, hr]
    change b.run (token :: after) = .error e
    rw [run_cons, feed_of_fault (length_blocks_eq_depth hr) hfault]
    rfl

end Faults

end Builder

theorem faultless_iff {tokens : List Token} : Faultless tokens ↔
    (∀ before token after, tokens = before ++ token :: after → token.delimiter = .closeBrace →
      depth before ≠ 0) ∧
    ∀ token ∈ tokens, token.delimiter = .openBrace → isAtRule token.text = true ∨
      Selector.unknownPseudo? token.text = none ∨ opensProperties token.text = true := by
  constructor
  · intro h
    refine ⟨fun before token after hsplit hd h0 => ?_, fun token htoken hd => ?_⟩
    · exact h before token after hsplit _ (.unmatchedClose hd h0)
    obtain ⟨before, after, hsplit⟩ := List.append_of_mem htoken
    rcases hu : Selector.unknownPseudo? token.text with _ | pseudo
    · exact .inr (.inl rfl)
    · by_contra hnone
      simp only [reduceCtorEq, false_or, not_or, Bool.not_eq_true] at hnone
      exact h before token after hsplit _ (.unknownPseudo hd hnone.1 hu hnone.2)
  · rintro ⟨hclose, hopen⟩ before token after hsplit e hfault
    cases hfault with
    | unmatchedClose hd h0 => exact hclose before token after hsplit hd h0
    | unknownPseudo hd hat hu hp =>
      rcases hopen token (by simp [hsplit]) hd with h | h | h
      · cases hat.symm.trans h
      · cases hu.symm.trans h
      · cases hp.symm.trans h

end StyleRules.Source

namespace StyleRules

open Source

/-- The tokens of a style text. -/
def textTokens (text : Text) : List Token := tokens (normalForm text)

section Parsing

variable {text : Text}

theorem parse_of_run {b : Builder} (hne : text ≠ [])
    (h : Builder.run {} (textTokens text) = .ok b) :
    parse text = b.finish (normalForm text).utf8Size := by
  rw [parse, if_neg (by simpa using hne)]
  show (Builder.run {} (textTokens text)).bind _ = _
  rw [h]
  rfl

theorem parse_of_run_error {e : Error} (hne : text ≠ [])
    (h : Builder.run {} (textTokens text) = .error e) : parse text = .error e := by
  rw [parse, if_neg (by simpa using hne)]
  show (Builder.run {} (textTokens text)).bind _ = _
  rw [h]
  rfl

theorem exists_parse_iff (hne : text ≠ []) : (∃ result, parse text = .ok result) ↔
    Faultless (textTokens text) ∧ depth (textTokens text) = 0 := by
  rcases hr : Builder.run {} (textTokens text) with e | b
  · have hnot := not_faultless_of_firstFault (Builder.run_eq_error_iff.mp hr)
    simp [parse_of_run_error hne hr, hnot]
  · have hfaultless := Builder.faultless_of_run hr
    rw [parse_of_run hne hr, ← Builder.length_blocks_eq_depth hr, Builder.finish]
    rcases b.blocks with _ | ⟨kind, blocks⟩ <;> simp [hfaultless]

theorem parse_eq_error_iff (hne : text ≠ []) (e : Error) : parse text = .error e ↔
    FirstFault (textTokens text) e ∨ Faultless (textTokens text) ∧ depth (textTokens text) ≠ 0 ∧
      e = .unmatchedOpen (normalForm text).utf8Size := by
  rcases hr : Builder.run {} (textTokens text) with e' | b
  · have hfirst := Builder.run_eq_error_iff.mp hr
    rw [parse_of_run_error hne hr, ← Builder.run_eq_error_iff, hr]
    simp [not_faultless_of_firstFault hfirst]
  · have hfaultless := Builder.faultless_of_run hr
    rw [parse_of_run hne hr, ← Builder.length_blocks_eq_depth hr, Builder.finish,
      ← Builder.run_eq_error_iff, hr]
    rcases b.blocks with _ | ⟨kind, blocks⟩
    · simp
    · simpa [hfaultless] using eq_comm

end Parsing

/-- **A text is read if and only if it has no fault and all its blocks are closed; otherwise it is
refused for its first fault**, or for a block that stays open. A closing brace is reported at the
number of bytes before it, and a header with the first of its pseudo-classes that is not accepted;
there are no other reports. -/
theorem parse_eq_ok_or_error_iff {text : Text} (hne : text ≠ []) :
    ((∃ result, parse text = .ok result) ↔
      (∀ before token after, textTokens text = before ++ token :: after →
        token.delimiter = .closeBrace → depth before ≠ 0) ∧
      (∀ token ∈ textTokens text, token.delimiter = .openBrace → isAtRule token.text = true ∨
        Selector.unknownPseudo? token.text = none ∨ opensProperties token.text = true) ∧
      depth (textTokens text) = 0) ∧
    (∀ e, parse text = .error e ↔ FirstFault (textTokens text) e ∨
      Faultless (textTokens text) ∧ depth (textTokens text) ≠ 0 ∧
        e = .unmatchedOpen (normalForm text).utf8Size) ∧
    (∀ before token after, textTokens text = before ++ token :: after →
      ∃ init rest, normalForm text = init ++ token.delimiter.text ++ rest ∧
        token.offset = init.utf8Size ∧
        tokens init = before ++ [{ token with delimiter := .endOfText }]) ∧
    (∀ header, parse text ≠ .error (.emptySelector header) ∧
      parse text ≠ .error (.missingProperty header)) ∧
    (∀ offset, (Error.unmatchedClose offset).message = Error.atOffset offset "Unmatched '\x7d'" ∧
      (Error.unmatchedOpen offset).message = Error.atOffset offset "Unmatched '\x7b'") ∧
    ∀ header pseudo, (Error.unknownPseudo header pseudo).message =
      Error.aboutHeader header ("unknown pseudo-class '".toList ++ pseudo ++ "'".toList) := by
  have herror := parse_eq_error_iff hne
  refine ⟨?_, herror, fun before token after h => exists_init_of_tokens h,
    fun header => ⟨fun h => ?_, fun h => ?_⟩, fun offset => ⟨rfl, rfl⟩, fun header pseudo => rfl⟩
  · rw [exists_parse_iff hne, faultless_iff, and_assoc]
  all_goals
    rcases (herror _).mp h with ⟨before, token, after, -, -, hfault⟩ | ⟨-, -, h⟩
    · cases hfault
    · cases h

/-- A block, and a closing brace too many. -/
def sampleRefused : Text := "é /* ; */ \x7b x: y; \x7d \x7d z: 1".toList

theorem parse_eq_error_sampleRefused : sampleRefused ≠ [] ∧
    FirstFault (textTokens sampleRefused) (.unmatchedClose 13) ∧
    parse sampleRefused = .error (.unmatchedClose 13) := by
  have hne : sampleRefused ≠ [] := by decide
  have hparse : parse sampleRefused = .error (.unmatchedClose 13) := rfl
  refine ⟨hne, (((parse_eq_ok_or_error_iff hne).2.1 _).mp hparse).resolve_right ?_, hparse⟩
  rintro ⟨-, -, h⟩
  cases h

end StyleRules
