import Mathlib.Data.List.Basic
import Mathlib.Tactic.Common
import StyleRules.Pattern.Basic

/-!
# Patterns of texts

The pattern of a text finds the words of the text, each literally and in order, with blanks between
them. It is made from a source, which has to be read as it is meant.

* `Regex.ofWords`: the expression of some words;
* **`Regex.read?_textSource`**: the source of a text is read as the expression of its words;
* `isSearchable`, **`ofText_eq`**: the pattern of a text, and when there is none.
-/

namespace StyleRules.Pattern

namespace Regex

/-- One blank or more. -/
def blanks : Regex := plus (chars (.named false .blank))

/-- The characters of some words, with blanks between each two words. -/
def wordParts : List Text → List Regex
  | [] => []
  | [w] => w.map char
  | w :: v :: ws => w.map char ++ blanks :: wordParts (v :: ws)

/-- The expression of some words with blanks between them. -/
def ofWords (ws : List Text) : Regex := ofParts (wordParts ws)

end Regex

/-! ## Reading the source of a text -/

/-- The lexemes of a quoted word. -/
def quotedLexemes (w : Text) : List Lexeme :=
  w.map fun c => if c ∈ specialChars then .escaped c else .plain c

theorem lexemes_cons_of_ne {c : Char} (h : c ≠ '\\') (t : Text) :
    lexemes (c :: t) = .plain c :: lexemes t := by
  rw [lexemes]
  · intro hc
    exact absurd hc h
  · intro d rest hc
    exact absurd hc h

theorem lexemes_quote (w rest : Text) :
    lexemes (quote w ++ rest) = quotedLexemes w ++ lexemes rest := by
  induction w with
  | nil => rfl
  | cons c w ih =>
    have hquote : quote (c :: w) = (if c ∈ specialChars then ['\\', c] else [c]) ++ quote w := rfl
    rw [hquote, quotedLexemes, List.map_cons, List.append_assoc]
    split_ifs with hc
    · show Lexeme.escaped c :: lexemes (quote w ++ rest) = _
      rw [ih]
      rfl
    · have hne : c ≠ '\\' := by
        rintro rfl
        exact hc (by decide)
      rw [List.singleton_append, lexemes_cons_of_ne hne, ih]
      rfl

/-- The lexemes of the source of some words. -/
def wordLexemes : List Text → List Lexeme
  | [] => []
  | [w] => quotedLexemes w
  | w :: v :: ws => quotedLexemes w ++ .escaped 's' :: .plain '+' :: wordLexemes (v :: ws)

theorem lexemes_join_quote (ws : List Text) :
    lexemes (Text.join ['\\', 's', '+'] (ws.map quote)) = wordLexemes ws := by
  induction ws with
  | nil => rfl
  | cons w ws ih =>
    cases ws with
    | nil =>
      have h := lexemes_quote w []
      rw [List.append_nil, show lexemes [] = [] from rfl, List.append_nil] at h
      rwa [List.map_singleton, Text.join_singleton]
    | cons v ws =>
      rw [List.map_cons, List.map_cons, Text.join_cons_cons, List.append_assoc, lexemes_quote,
        wordLexemes, ← ih]
      rfl

theorem escape?_of_special {c : Char} (hc : c ∈ specialChars) : escape? c = some (.char c) := by
  simp only [specialChars, List.mem_cons, List.not_mem_nil, or_false] at hc
  rcases hc with rfl | rfl | rfl | rfl | rfl | rfl | rfl | rfl | rfl | rfl | rfl | rfl | rfl | rfl |
    rfl | rfl | rfl | rfl <;> rfl

namespace Reader

/-- The reader that has some parts, latest first, and nothing open. -/
def holding (parts : List Regex) : Reader := { group := { parts } }

theorem step?_holding (parts : List Regex) (l : Lexeme) (rest : List Lexeme) :
    (holding parts).step? l rest = (holding parts).plain? l rest := rfl

theorem run_of_step? {r r' : Reader} {l : Lexeme} {rest : List Lexeme}
    (h : r.step? l rest = some r') : run (l :: rest) r = run rest r' := by
  rw [run.eq_def]
  simp only [h]

theorem plain?_of_not_special {c : Char} (hc : c ∉ specialChars) (parts : List Regex)
    (rest : List Lexeme) :
    (holding parts).plain? (.plain c) rest = some (holding (.char c :: parts)) := by
  unfold plain?
  split <;> simp_all [specialChars]
  rfl

theorem run_quotedLexemes (w : Text) (parts : List Regex) (rest : List Lexeme) :
    run (quotedLexemes w ++ rest) (holding parts) =
      run rest (holding ((w.map Regex.char).reverse ++ parts)) := by
  induction w generalizing parts with
  | nil => rfl
  | cons c w ih =>
    have hstep : (holding parts).step? (if c ∈ specialChars then .escaped c else .plain c)
        (quotedLexemes w ++ rest) = some (holding (.char c :: parts)) := by
      rw [step?_holding]
      split_ifs with hc
      · rw [plain?, escape?_of_special hc]
        rfl
      · exact plain?_of_not_special hc parts _
    rw [quotedLexemes, List.map_cons, List.cons_append]
    refine (run_of_step? hstep).trans ?_
    simp [ih]

/-- Blanks between two words: no word starts with a question mark of its own. -/
theorem run_gap {rest : List Lexeme} (h : rest.head? ≠ some (.plain '?')) (parts : List Regex) :
    run (.escaped 's' :: .plain '+' :: rest) (holding parts) =
      run rest (holding (Regex.blanks :: parts)) := by
  have hs : (holding parts).step? (.escaped 's') (.plain '+' :: rest) =
      some (holding (.chars (.named false .blank) :: parts)) := rfl
  have hlazy : ((rest.drop 0).head? == some (Lexeme.plain '?')) = false := by
    rwa [List.drop_zero, beq_eq_false_iff_ne]
  have hplus : (holding (.chars (.named false .blank) :: parts)).step? (.plain '+') rest =
      some (holding (Regex.blanks :: parts)) := by
    rw [step?_holding, plain?, repeat?]
    simp only [holding, hlazy, Bool.false_eq_true, if_false]
    rfl
  rw [run_of_step? hs, run_of_step? hplus]

theorem head?_wordLexemes (ws : List Text) : (wordLexemes ws).head? ≠ some (.plain '?') := by
  have hword : ∀ (w : Text) (rest : List Lexeme), rest.head? ≠ some (.plain '?') →
      (quotedLexemes w ++ rest).head? ≠ some (.plain '?') := by
    intro w rest hrest
    cases w with
    | nil => exact hrest
    | cons c w =>
      show some (if c ∈ specialChars then Lexeme.escaped c else .plain c) ≠ _
      split_ifs with hc
      · simp
      · rintro h
        obtain rfl := Lexeme.plain.inj (Option.some.inj h)
        exact hc (by decide)
  match ws with
  | [] => simp [wordLexemes]
  | [w] => simpa [wordLexemes] using hword w [] (by simp)
  | w :: v :: ws => exact hword w _ (by simp)

theorem run_wordLexemes (ws : List Text) (parts : List Regex) :
    run (wordLexemes ws) (holding parts) =
      some (holding ((Regex.wordParts ws).reverse ++ parts)) := by
  induction ws generalizing parts with
  | nil => rfl
  | cons w ws ih =>
    cases ws with
    | nil =>
      have h := run_quotedLexemes w parts []
      rwa [List.append_nil] at h
    | cons v ws =>
      rw [wordLexemes, run_quotedLexemes, run_gap (head?_wordLexemes _), ih, Regex.wordParts]
      simp

end Reader

/-- **The source of a text is read as the expression of its words.** -/
theorem Regex.read?_textSource (t : Text) : read? (textSource t) = some (ofWords t.words) := by
  have hrun : Reader.run (lexemes (textSource t)) {} =
      some (.holding (wordParts t.words).reverse) := by
    rw [textSource, lexemes_join_quote]
    have h := Reader.run_wordLexemes t.words []
    rwa [List.append_nil] at h
  rw [read?, hrun]
  show some (ofBranches [ofParts (wordParts t.words).reverse.reverse]) = _
  rw [List.reverse_reverse]
  rfl

/-! ## The limits -/

namespace Regex

theorem allNestWithin_iff {n : Nat} {parts : List Regex} :
    allNestWithin n parts = true ↔ ∀ part ∈ parts, part.nestsWithin n = true := by
  induction parts with
  | nil => simp [allNestWithin]
  | cons part parts ih => simp [allNestWithin, ih]

theorem forall_mem_wordParts {P : Regex → Prop} (hchar : ∀ c, P (char c)) (hblanks : P blanks)
    (ws : List Text) : ∀ part ∈ wordParts ws, P part := by
  have hword : ∀ w : Text, ∀ part ∈ w.map char, P part := by
    intro w part hpart
    obtain ⟨c, -, rfl⟩ := List.mem_map.mp hpart
    exact hchar c
  induction ws with
  | nil => exact fun _ h => absurd h List.not_mem_nil
  | cons w ws ih =>
    cases ws with
    | nil => exact hword w
    | cons v ws =>
      rw [wordParts]
      intro part hpart
      rcases List.mem_append.mp hpart with hpart | hpart
      · exact hword w part hpart
      · rcases List.mem_cons.mp hpart with rfl | hpart
        · exact hblanks
        · exact ih part hpart

/-- The expression of some words is nested two deep at most. -/
theorem nestsWithin_ofWords (ws : List Text) {n : Nat} (hn : 2 ≤ n) :
    (ofWords ws).nestsWithin n = true := by
  have hparts : ∀ m, 1 ≤ m → ∀ part ∈ wordParts ws, part.nestsWithin m = true := by
    intro m hm
    refine forall_mem_wordParts (fun c => rfl) ?_ ws
    simp [blanks, plus, nestsWithin, CharSet.nestsWithin]
    omega
  unfold ofWords ofParts
  split
  · rename_i part hone
    exact hparts n (by omega) part (by simp [hone])
  · rw [nestsWithin]
    have hne : (n != 0) = true := by simp; omega
    split_ifs
    · rw [hne, Bool.true_and, allNestWithin_iff]
      exact hparts (n - 1) (by omega)
    · rw [allNestWithin_iff]
      exact hparts n (by omega)

end Regex

/-- Whether a text can be searched for: the automata of its words keep within the limit. -/
def isSearchable (t : Text) : Bool := (Regex.ofWords t.words).form.fits

/-- **The pattern of a text**: there is one exactly if the text can be searched for. -/
theorem ofText_eq (t : Text) : ofText t =
    if isSearchable t then .ok ⟨textSource t, .ofWords t.words⟩ else .error .badPattern := by
  have hadmitted : isAdmitted (.ofWords t.words) = isSearchable t := by
    rw [isAdmitted, Regex.nestsWithin_ofWords _ (by decide), Bool.true_and, isSearchable]
  rw [ofText, compile, Regex.read?_textSource]
  simp only [hadmitted]

end StyleRules.Pattern
