import StyleRules.Proofs.Rule.Parsed
import StyleRules.Proofs.Rule.RoundTrip

/-!
# Stored values

A clean value reaches the tree as it is written, web addresses included, but a declaration ends at
the second colon.

* `quiet_declarationText`: a written property with a clean value holds no comment;
* `evaluate_declaration`: the tree of a declaration on its own;
* **`parse_declaration`**: a clean value is stored up to its first colon.
-/

namespace StyleRules

open Source Text

section Declaration

variable {key value : Text} (hk : IsName key) (hclean : isClean value = true)

include hk

theorem quiet_declarationText (hv : Quiet value) : Quiet (declarationText key value ++ [';']) := by
  have hno : ∀ {d : Char}, Selector.isNameChar d = false → d ∉ key :=
    fun hd hm => Selector.ne_of_isNameChar (hk.2 _ hm) hd rfl
  have hkey : Quiet key := ⟨hasPair_of_not_mem (hno rfl), keepsAddresses_of_not_mem (hno rfl)⟩
  have hend : Quiet [';'] := ⟨rfl, rfl⟩
  have hcolon : Quiet [':'] := ⟨rfl, rfl⟩
  have hvalue : Quiet (' ' :: (value ++ [';'])) :=
    (hv.append hend (by simp)).cons (by decide) (by decide)
  have hrest : Quiet (':' :: ' ' :: (value ++ [';'])) := hcolon.append hvalue (by simp)
  simpa [declarationText] using hkey.append hrest (by simp)

include hclean

theorem evaluate_declaration : evaluate [.statement (tokenText (declarationText key value))] =
    if (value.takeWhile (· ≠ ':')).isEmpty then []
    else [(key, .leaf (value.takeWhile (· ≠ ':')))] := by
  have htext := (clean_of_isClean hclean).legible.tokenText_eq
  rw [evaluate, Item.evalAll, Item.evalAll, Item.eval, Scope.statement,
    isAtRule_declarationText hk.1 hk.2, if_neg (by simp), find?_tokenText hk.1 hk.2, htext]
  simp only [Scope.write, List.nil_append, Text.join_singleton]
  rfl

theorem parse_declarationText : parse (declarationText key value ++ [';']) =
    .ok (if (value.takeWhile (· ≠ ':')).isEmpty then none
      else some [(key, .leaf (value.takeWhile (· ≠ ':')))]) := by
  have hc := clean_of_isClean hclean
  obtain ⟨hcut, hesc⟩ := isCutFree_declarationText hk.2 value
  rw [hc.legible.squeeze_eq] at hcut hesc
  have hnil : ∀ c ∈ ([] : Text), isBlank c = true := fun _ hc => absurd hc List.not_mem_nil
  have hpiece := cuts_piece hnil (hcut.trans hc.legible.cutFree) (hesc.trans hc.closed)
    (show Delimiter.ofChar? ';' = some .semicolon from rfl) []
  have hnormal := normalForm_of_strip_eq (quiet_declarationText hk hc.quiet).strip_eq
  rw [List.nil_append, ← hnormal] at hpiece
  have hitems : cuts (normalForm (declarationText key value ++ [';'])) =
      Item.allCuts [.statement (tokenText (declarationText key value))] ++ [([], .endOfText)] :=
    hpiece
  rw [parse_of_cuts (by simp) rfl hitems, evaluate_declaration hk hclean]
  generalize value.takeWhile (· ≠ ':') = stored
  cases stored <;> rfl

end Declaration

/-- **A clean value is stored as it is written, up to its first colon.** Without a colon all of it
is stored, a scheme-relative address such as `url(//a)` included; with one, what stands before it
is, and nothing if the value starts with the colon. -/
theorem parse_declaration {key value : Text} (hk : IsName key) (hv : value ≠ [])
    (hclean : isClean value = true) :
    (':' ∉ value → parse (key ++ [':', ' '] ++ value ++ [';']) = .ok (some [(key, .leaf value)])) ∧
    ∀ before after, value = before ++ ':' :: after → ':' ∉ before →
      parse (key ++ [':', ' '] ++ value ++ [';']) =
        .ok (if before = [] then none else some [(key, .leaf before)]) := by
  have hparse := parse_declarationText hk hclean
  have htext : declarationText key value ++ [';'] = key ++ [':', ' '] ++ value ++ [';'] := by
    simp [declarationText]
  rw [htext] at hparse
  constructor
  · intro hcolon
    rw [hparse, takeWhile_of_not_mem_colon hcolon, if_neg (by simpa using hv)]
  · intro before after hsplit hbefore
    have hstored : value.takeWhile (· ≠ ':') = before := by
      rw [hsplit, takeWhile_append_of_not_mem_colon hbefore]
      simp
    rw [hparse, hstored]
    simp only [List.isEmpty_iff]

/-- An address that names its scheme. -/
def sampleAddress : Text := "url(http://a.b/c), d".toList

theorem parse_declaration_sampleAddress : IsName "b".toList ∧ sampleAddress ≠ [] ∧
    isClean sampleAddress = true ∧
    parse ("b".toList ++ [':', ' '] ++ sampleAddress ++ [';']) =
      .ok (some [("b".toList, .leaf "url(http".toList)]) ∧
    parse ("b".toList ++ [':', ' '] ++ "url(//a.b/c), d".toList ++ [';']) =
      .ok (some [("b".toList, .leaf "url(//a.b/c), d".toList)]) := by
  have hk : IsName "b".toList := by decide
  have hv : sampleAddress ≠ [] := by decide
  have hclean : isClean sampleAddress = true := by decide
  have hcut := (parse_declaration hk hv hclean).2 "url(http".toList "//a.b/c), d".toList rfl
    (by decide)
  have hwhole := (parse_declaration hk (by decide : "url(//a.b/c), d".toList ≠ []) (by decide)).1
    (by decide)
  exact ⟨hk, hv, hclean, hcut, hwhole⟩

theorem not_parse_declaration_sampleAddress : IsName "b".toList ∧ sampleAddress ≠ [] ∧
    isClean sampleAddress = true ∧
    parse ("b".toList ++ [':', ' '] ++ sampleAddress ++ [';']) ≠
      .ok (some [("b".toList, .leaf sampleAddress)]) := by
  refine ⟨by decide, by decide, by decide, fun h => ?_⟩
  have hcut : parse ("b".toList ++ [':', ' '] ++ sampleAddress ++ [';']) =
      .ok (some [("b".toList, .leaf "url(http".toList)]) := rfl
  have hvalue : "url(http".toList = sampleAddress := by simpa using hcut.symm.trans h
  exact absurd hvalue (by decide)

end StyleRules
