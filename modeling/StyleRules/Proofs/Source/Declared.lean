import StyleRules.Proofs.Selector.Combining
import StyleRules.Proofs.Source.Legible

/-!
# Declarations

* `IsDeclared`: a property name with a value that a declaration can have;
* `declarationText`: a property as it is written;
* `find?_of_isNameChar`: a name and a colon at the start of a text declare what follows;
* **`find?_tokenText`**, `find?_declarationText`: a written property is read as what is left of it
  in its token;
* **`isDeclared_of_find?`**: what is read from a legible text is declared.
-/

namespace StyleRules.Source

open Text
open Selector (isBlank_of_isNameChar ne_of_isNameChar)

/-- A property name with a value that a declaration can have. -/
structure IsDeclared (key value : Text) : Prop where
  key_ne : key ≠ []
  key_name : ∀ c ∈ key, Selector.isNameChar c = true
  value_ne : value ≠ []
  /-- The value is not cut at a colon. -/
  no_colon : ':' ∉ value
  starts : startsBlank value = false
  neat : Neat value
  cutFree : isCutFree value = true

instance (key value : Text) : Decidable (IsDeclared key value) :=
  haveI : Decidable (∀ c ∈ key, Selector.isNameChar c = true) := List.decidableBAll _ key
  decidable_of_iff (key ≠ [] ∧ (∀ c ∈ key, Selector.isNameChar c = true) ∧ value ≠ [] ∧
      ':' ∉ value ∧ startsBlank value = false ∧ Neat value ∧ isCutFree value = true)
    ⟨fun ⟨h1, h2, h3, h4, h5, h6, h7⟩ => ⟨h1, h2, h3, h4, h5, h6, h7⟩,
      fun ⟨h1, h2, h3, h4, h5, h6, h7⟩ => ⟨h1, h2, h3, h4, h5, h6, h7⟩⟩

/-! ## Written properties -/

theorem isAtRule_of_startsWithAt {t : Text} (h : Selector.startsWithAt t = false) :
    isAtRule t = false := by
  cases t with
  | nil => rfl
  | cons c t =>
    rw [← Bool.not_eq_true]
    intro hat
    obtain rfl : c = '@' := by simpa [isAtRule] using hat
    cases h

theorem plain_of_isNameChar {c : Char} (h : Selector.isNameChar c = true) :
    c ≠ '\\' ∧ Delimiter.ofChar? c = none := by
  refine ⟨ne_of_isNameChar h (by decide), ?_⟩
  rw [Delimiter.ofChar?, if_neg (ne_of_isNameChar h (by decide)),
    if_neg (ne_of_isNameChar h (by decide)), if_neg (ne_of_isNameChar h (by decide))]

/-- A property as it is written. -/
def declarationText (key value : Text) : Text := key ++ ':' :: ' ' :: value

section Written

variable {key : Text}

theorem collapse_of_isNameChar (hk : ∀ c ∈ key, Selector.isNameChar c = true) :
    collapse key = key := by
  induction key with
  | nil => rfl
  | cons c key ih =>
    rw [collapse, isBlank_of_isNameChar (hk c List.mem_cons_self),
      ih fun d hd => hk d (List.mem_cons_of_mem c hd)]
    rfl

theorem squeeze_declarationText (hk : ∀ c ∈ key, Selector.isNameChar c = true) (value : Text) :
    squeeze (declarationText key value) = key ++ ':' :: squeeze (' ' :: value) := by
  have hblank : isBlank ':' = false := by decide
  have hspace : ' ' ∉ key := fun hm => ne_of_isNameChar (hk _ hm) (by decide) rfl
  have hcollapse : collapse (':' :: ' ' :: value) = ':' :: collapse (' ' :: value) := by
    rw [collapse, hblank]
    rfl
  rw [declarationText, squeeze,
    collapse_append (.inr (show startsBlank (':' :: ' ' :: value) = false from hblank)),
    collapse_of_isNameChar hk, hcollapse, tightenCommas_append _ (by simp),
    tightenCommas_of_not_mem hspace, tightenCommas, if_neg (by simp)]
  rfl

/-- The name of a property is no cut, nor does it hide one. -/
theorem isCutFree_declarationText (hk : ∀ c ∈ key, Selector.isNameChar c = true) (value : Text) :
    isCutFree (squeeze (declarationText key value)) = isCutFree (squeeze value) ∧
      endsEscaped (squeeze (declarationText key value)) = endsEscaped (squeeze value) := by
  have hplain : ∀ c ∈ key ++ [':'], c ≠ '\\' ∧ Delimiter.ofChar? c = none := by
    intro c hc
    rcases List.mem_append.mp hc with hc | hc
    · exact plain_of_isNameChar (hk c hc)
    · rw [List.mem_singleton.mp hc]
      decide
  have hsplit : squeeze (declarationText key value) = (key ++ [':']) ++ squeeze (' ' :: value) := by
    rw [squeeze_declarationText hk]
    simp
  obtain ⟨h1, h2⟩ := isCutFree_append_of_plain hplain (squeeze (' ' :: value))
  obtain ⟨h3, h4⟩ := isCutFree_lead (squeeze_space value)
  rw [hsplit, h1, h2]
  exact ⟨h3, h4⟩

/-- The token of a written property. -/
theorem tokenText_declarationText (hne : key ≠ []) (hk : ∀ c ∈ key, Selector.isNameChar c = true)
    (value : Text) :
    tokenText (declarationText key value) = key ++ ':' :: (squeeze (' ' :: value)).trimRight := by
  obtain ⟨c, rest, rfl⟩ := List.exists_cons_of_ne_nil hne
  have hstarts : startsBlank (c :: rest ++ ':' :: squeeze (' ' :: value)) = false :=
    isBlank_of_isNameChar (hk c List.mem_cons_self)
  rw [tokenText, squeeze_declarationText hk, trim, trimLeft_of_not_startsBlank hstarts,
    trimRight_append_cons (by decide)]

theorem isAtRule_declarationText (hne : key ≠ []) (hk : ∀ c ∈ key, Selector.isNameChar c = true)
    (value : Text) : isAtRule (tokenText (declarationText key value)) = false := by
  rw [tokenText_declarationText hne hk]
  obtain ⟨c, rest, rfl⟩ := List.exists_cons_of_ne_nil hne
  have hc : c ≠ '@' := ne_of_isNameChar (hk c List.mem_cons_self) (by decide)
  simpa [isAtRule] using hc

/-- A token has no characters but spaces and those of its piece. -/
theorem mem_of_mem_tokenText {c : Char} {t : Text} (h : c ∈ tokenText t) : c ∈ t ∨ c = ' ' := by
  have hcollapse := (tightenCommas_sublist _).subset ((trim_isInfix _).subset h)
  clear h
  induction t with
  | nil => exact absurd hcollapse List.not_mem_nil
  | cons d t ih =>
    rw [collapse] at hcollapse
    split_ifs at hcollapse
    · exact (ih hcollapse).imp_left (List.mem_cons_of_mem d)
    · rcases List.mem_cons.mp hcollapse with rfl | h
      · exact .inr rfl
      · exact (ih h).imp_left (List.mem_cons_of_mem d)
    · rcases List.mem_cons.mp hcollapse with rfl | h
      · exact .inl List.mem_cons_self
      · exact (ih h).imp_left (List.mem_cons_of_mem d)

theorem takeWhile_append_of_not_mem_colon {s : Text} (hs : ':' ∉ s) (t : Text) :
    (s ++ t).takeWhile (· ≠ ':') = s ++ t.takeWhile (· ≠ ':') := by
  refine List.takeWhile_append_of_pos fun c hc => ?_
  have hne : c ≠ ':' := fun h => hs (h ▸ hc)
  simpa using hne

theorem takeWhile_of_not_mem_colon {t : Text} (ht : ':' ∉ t) : t.takeWhile (· ≠ ':') = t := by
  simpa using takeWhile_append_of_not_mem_colon ht []

/-- A text that starts with a name and a colon declares what follows the colon. -/
theorem find?_of_isNameChar (hne : key ≠ []) (hk : ∀ c ∈ key, Selector.isNameChar c = true)
    (rest : Text) : Declaration.find? (key ++ ':' :: rest) = some ⟨key, valueAfterColon rest⟩ := by
  have hname : Selector.isNameChar ':' = false := by decide
  have htake : (key ++ ':' :: rest).takeWhile Selector.isNameChar = key := by
    rw [List.takeWhile_append_of_pos hk, List.takeWhile_cons_of_neg (by simp [hname]),
      List.append_nil]
  have hdrop : (key ++ ':' :: rest).dropWhile Selector.isNameChar = ':' :: rest := by
    rw [List.dropWhile_append_of_pos hk, List.dropWhile_cons_of_neg (by simp [hname])]
  have htrim : trimLeft (':' :: rest) = ':' :: rest :=
    trimLeft_of_not_startsBlank (show isBlank ':' = false by decide)
  obtain ⟨c, name, rfl⟩ := List.exists_cons_of_ne_nil hne
  have hstart : Declaration.atStart? (c :: name ++ ':' :: rest) =
      some ⟨c :: name, valueAfterColon rest⟩ := by
    simp only [Declaration.atStart?, htake, hdrop, htrim]
  rw [List.cons_append] at hstart ⊢
  rw [Declaration.find?, hstart]
  rfl

/-- **A written property is read as what is left of it in its token**, up to the first colon of the
value. -/
theorem find?_tokenText (hne : key ≠ []) (hk : ∀ c ∈ key, Selector.isNameChar c = true)
    (value : Text) : Declaration.find? (tokenText (declarationText key value)) =
      some ⟨key, (tokenText value).takeWhile (· ≠ ':')⟩ := by
  have htrim : (squeeze (' ' :: value)).trim = tokenText value := trim_lead (squeeze_space value)
  rw [tokenText_declarationText hne hk, find?_of_isNameChar hne hk, valueAfterColon,
    trimLeft_trimRight, htrim]

theorem find?_declarationText (hne : key ≠ []) (hk : ∀ c ∈ key, Selector.isNameChar c = true)
    {value : Text} (hcolon : ':' ∉ value) :
    Declaration.find? (tokenText (declarationText key value)) = some ⟨key, tokenText value⟩ := by
  have htoken : ':' ∉ tokenText value := by
    intro hm
    rcases mem_of_mem_tokenText hm with hm | hm
    · exact hcolon hm
    · cases hm
  rw [find?_tokenText hne hk, takeWhile_of_not_mem_colon htoken]

end Written

/-- A declared value without a blank at its end comes out of its token as it went in. -/
theorem IsDeclared.tokenText_eq {key value : Text} (h : IsDeclared key value)
    (he : endsBlank value = false) : tokenText value = value := by
  rw [tokenText, squeeze, h.neat.collapse_eq, h.neat.tighten_eq, trim,
    trimLeft_of_not_startsBlank h.starts, trimRight_of_not_endsBlank he]

/-! ## Found declarations -/

theorem atStart?_spec {t : Text} {d : Declaration} (h : Declaration.atStart? t = some d) :
    d.key ≠ [] ∧ (∀ c ∈ d.key, Selector.isNameChar c = true) ∧ ∃ before rest,
      t = before ++ ':' :: rest ∧ d.key.length ≤ before.length ∧
        d.value = valueAfterColon rest := by
  have hsplit := List.takeWhile_append_dropWhile (p := Selector.isNameChar) (l := t)
  unfold Declaration.atStart? at h
  rcases hk : t.takeWhile Selector.isNameChar with _ | ⟨c, key⟩
  · simp [hk] at h
  · rcases ht : trimLeft (t.dropWhile Selector.isNameChar) with _ | ⟨e, rest⟩
    · simp [hk, ht] at h
    · by_cases he : e = ':'
      · subst he
        simp only [hk, ht, Option.some.injEq] at h
        subst h
        refine ⟨by simp, fun c hc => List.mem_takeWhile_imp (hk ▸ hc), ?_⟩
        -- the name and the blanks behind it stand before the colon
        have hblank := List.takeWhile_append_dropWhile (p := isBlank)
          (l := t.dropWhile Selector.isNameChar)
        rw [show (t.dropWhile Selector.isNameChar).dropWhile isBlank = ':' :: rest from ht]
          at hblank
        refine ⟨t.takeWhile Selector.isNameChar ++
          (t.dropWhile Selector.isNameChar).takeWhile isBlank, rest, ?_, ?_, rfl⟩
        · rw [List.append_assoc, hblank, hsplit]
        · rw [hk, List.length_append]
          exact Nat.le_add_right _ _
      · simp [hk, ht, he] at h

theorem find?_spec {t : Text} {d : Declaration} (h : Declaration.find? t = some d) :
    d.key ≠ [] ∧ (∀ c ∈ d.key, Selector.isNameChar c = true) ∧ ∃ before rest,
      t = before ++ ':' :: rest ∧ d.key.length ≤ before.length ∧
        d.value = valueAfterColon rest := by
  induction t with
  | nil => cases h
  | cons c t ih =>
    rw [Declaration.find?, Option.or_eq_some_iff] at h
    rcases h with h | ⟨-, h⟩
    · exact atStart?_spec h
    · obtain ⟨hne, hname, before, rest, rfl, hlen, hv⟩ := ih h
      exact ⟨hne, hname, c :: before, rest, rfl, Nat.le_succ_of_le hlen, hv⟩

theorem valueAfterColon_isPrefix (t : Text) : valueAfterColon t <+: t.trimLeft :=
  List.takeWhile_prefix _

/-- A declaration is shorter than the text that it is found in. -/
theorem length_of_find? {t : Text} {d : Declaration} (h : Declaration.find? t = some d) :
    d.key.length + 1 + d.value.length ≤ t.length := by
  obtain ⟨-, -, before, rest, rfl, hlen, hv⟩ := find?_spec h
  have h1 := (valueAfterColon_isPrefix rest).length_le
  have h2 : (Text.trimLeft rest).length ≤ rest.length := (List.dropWhile_suffix _).length_le
  rw [hv, List.length_append, List.length_cons]
  omega

/-- **What is read from a legible text is declared**, unless the value is empty. -/
theorem isDeclared_of_find? {t : Text} (ht : Legible t) {d : Declaration}
    (h : Declaration.find? t = some d) (hv : d.value ≠ []) : IsDeclared d.key d.value := by
  obtain ⟨hne, hname, before, rest, rfl, -, hvalue⟩ := find?_spec h
  have hrest : before ++ ':' :: rest = (before ++ [':']) ++ rest := by simp
  have hprefix := valueAfterColon_isPrefix rest
  rw [← hvalue] at hprefix
  have hinfix : d.value <:+: before ++ ':' :: rest := by
    have hsuffix : rest <:+ before ++ ':' :: rest := hrest ▸ List.suffix_append _ _
    exact hprefix.isInfix.trans ((List.dropWhile_suffix _).isInfix.trans hsuffix.isInfix)
  -- the colon hides nothing, so the text behind it is cut as it stands
  have hcut : isCutFree rest = true := by
    have hopen : endsEscaped (before ++ [':']) = false := by
      rw [← Bool.not_eq_true]
      intro hesc
      have := getLast?_of_endsEscaped hesc
      rw [List.getLast?_concat] at this
      cases this
    have := ht.cutFree
    rw [hrest, isCutFree_append hopen, Bool.and_eq_true] at this
    exact this.2
  refine ⟨hne, hname, hv, ?_, ?_, ht.neat.of_isInfix hinfix,
    isCutFree_of_isPrefix (isCutFree_trimLeft hcut) hprefix⟩
  · rw [hvalue]
    intro hm
    simpa using List.mem_takeWhile_imp hm
  · obtain ⟨after, hafter⟩ := hprefix
    have hs := startsBlank_trimLeft rest
    rwa [← hafter, startsBlank_append hv] at hs

end StyleRules.Source
