import StyleRules.Proofs.Source.Quiet
import StyleRules.Source.Parse

/-!
# Comments are transparent

A comment that is put into a text changes nothing that is read. Both passes go through the text in
front of it as if it were not there, and behind it they go on as at the start of a text, so what
follows may hold further comments.

* `stripBlockComments_append`, `stripLineCommentsFrom_append`: the text in front of a comment;
* `stripBlockComments_comment`, `stripLineComments_comment`: a comment and the text behind it;
* `parse_eq_of_normalForm_eq`, `parse_congr`: reading depends on the normal form, and on what both
  passes leave;
* **`parse_comment_eq`**: a text with a comment is read as the text without it.
-/

namespace StyleRules.Source

theorem ne_cons_of_hasPair {x y c : Char} {a t : Text} (h : hasPair x y (c :: a) = false)
    (hend : a = [] → c = x → t.head? ≠ some y) : ∀ t', c = x → a ++ t = y :: t' → False := by
  rintro t' rfl ht
  rw [hasPair, Bool.or_eq_false_iff] at h
  cases a with
  | nil => exact hend rfl rfl (by rw [← List.nil_append t, ht]; rfl)
  | cons d a =>
    obtain ⟨rfl, -⟩ := List.cons.inj ht
    simp at h

/-! ## Block comments -/

theorem stripBlockComments_append {a b : Text} (ha : hasPair '/' '*' a = false)
    (hab : ¬ (a.getLast? = some '/' ∧ b.head? = some '*')) :
    stripBlockComments (a ++ b) = a ++ stripBlockComments b := by
  unfold stripBlockComments
  induction a with
  | nil => rfl
  | cons c a ih =>
    have hopen : a = [] → c = '/' → b.head? ≠ some '*' := by
      rintro rfl rfl hb
      exact hab ⟨rfl, hb⟩
    have hrest : ¬ (a.getLast? = some '/' ∧ b.head? = some '*') := by
      rintro ⟨hlast, hb⟩
      exact hab ⟨by rw [List.getLast?_cons, hlast]; rfl, hb⟩
    rw [List.cons_append, stripBlockCommentsFrom, ih (Bool.or_eq_false_iff.mp ha).2 hrest]
    · rfl
    · exact ne_cons_of_hasPair ha hopen

theorem hasClose_append (c b : Text) : hasClose (c ++ '*' :: '/' :: b) = true := by
  induction c with
  | nil => rfl
  | cons d c ih =>
    rw [List.cons_append]
    unfold hasClose
    split
    · simp_all
    · rfl
    · simp_all

theorem stripBlockCommentsFrom_close {c : Text} (hc : hasPair '*' '/' c = false) (b : Text) :
    stripBlockCommentsFrom true (c ++ '*' :: '/' :: b) = stripBlockComments b := by
  induction c with
  | nil => rfl
  | cons d c ih =>
    rw [List.cons_append, stripBlockCommentsFrom, ih (Bool.or_eq_false_iff.mp hc).2]
    exact ne_cons_of_hasPair hc (by simp)

theorem stripBlockComments_comment {c : Text} (hc : hasPair '*' '/' c = false) (b : Text) :
    stripBlockComments ('/' :: '*' :: (c ++ '*' :: '/' :: b)) = stripBlockComments b := by
  rw [stripBlockComments, stripBlockCommentsFrom, if_pos (hasClose_append c b),
    stripBlockCommentsFrom_close hc]

/-! ## Line comments -/

theorem stripLineCommentsFrom_congr {before other : Option Char}
    (h : startsAddress before = startsAddress other) (t : Text) :
    stripLineCommentsFrom (.code before) t = stripLineCommentsFrom (.code other) t := by
  unfold stripLineCommentsFrom
  split <;> simp_all

/-- Text without `//` is kept, and what follows is read as at the start if `//` is no address
there. -/
theorem stripLineCommentsFrom_append {before : Option Char} {a : Text}
    (ha : hasPair '/' '/' a = false) (hlast : a.getLast? ≠ some '/')
    (haddress : startsAddress (a.getLast?.or before) = false) (t : Text) :
    stripLineCommentsFrom (.code before) (a ++ t) = a ++ stripLineComments t := by
  induction a generalizing before with
  | nil => exact stripLineCommentsFrom_congr haddress t
  | cons c a ih =>
    have hopen : a = [] → c = '/' → t.head? ≠ some '/' := by
      rintro rfl rfl
      exact absurd rfl hlast
    rw [List.getLast?_cons] at hlast haddress
    rw [List.cons_append, stripLineCommentsFrom, ih (Bool.or_eq_false_iff.mp ha).2]
    · rfl
    · intro h
      simp [h] at hlast
    · cases h : a.getLast? <;> simpa [h] using haddress
    · exact ne_cons_of_hasPair ha hopen

theorem stripLineCommentsFrom_close {c : Text} (hc : '\n' ∉ c) (b : Text) :
    stripLineCommentsFrom .comment (c ++ '\n' :: b) = stripLineComments b := by
  induction c with
  | nil => rfl
  | cons d c ih =>
    rw [List.mem_cons, not_or] at hc
    rw [List.cons_append, stripLineCommentsFrom, if_neg (Ne.symm hc.1), ih hc.2]

theorem stripLineComments_comment {c : Text} (hc : '\n' ∉ c) (b : Text) :
    stripLineComments ('/' :: '/' :: (c ++ '\n' :: b)) = stripLineComments b := by
  rw [stripLineComments, stripLineCommentsFrom, if_neg (by simp [startsAddress]),
    if_pos (by simp), stripLineCommentsFrom_close hc]

end StyleRules.Source

namespace StyleRules

open Source

/-! ## Reading -/

/-- Texts are read alike if they have the same normal form. The empty text is no exception. -/
theorem parse_eq_of_normalForm_eq {s t : Text} (h : normalForm s = normalForm t) :
    parse s = parse t := by
  have hparse : ∀ text, parse text = (build (normalForm text)).bind fun b =>
      b.finish (normalForm text).utf8Size := by
    intro text
    cases text <;> rfl
  rw [hparse, hparse, h]

theorem parse_congr {s t : Text}
    (h : stripLineComments (stripBlockComments s) = stripLineComments (stripBlockComments t)) :
    parse s = parse t := by
  refine parse_eq_of_normalForm_eq ?_
  rw [normalForm, normalForm, h]

section Comments

variable {a c b : Text}

theorem parse_blockComment (ha : hasPair '/' '*' a = false) (hc : hasPair '*' '/' c = false)
    (hab : ¬ (a.getLast? = some '/' ∧ b.head? = some '*')) :
    parse (a ++ '/' :: '*' :: (c ++ '*' :: '/' :: b)) = parse (a ++ b) := by
  apply parse_congr
  rw [stripBlockComments_append ha (by simp), stripBlockComments_comment hc,
    stripBlockComments_append ha hab]

theorem parse_lineComment (ha : hasPair '/' '*' a = false) (hslashes : hasPair '/' '/' a = false)
    (hlast : ∀ e ∈ a.getLast?, e ≠ '/' ∧ e ≠ ':' ∧ e ≠ '(') (hc : '\n' ∉ c)
    (hopen : hasPair '/' '*' ('/' :: c) = false) :
    parse (a ++ '/' :: '/' :: (c ++ '\n' :: b)) = parse (a ++ b) := by
  have hslash : a.getLast? ≠ some '/' := fun h => (hlast '/' h).1 rfl
  have haddress : startsAddress (a.getLast?.or none) = false := by
    rcases h : a.getLast? with _ | e
    · rfl
    · simp [startsAddress, hlast e h]
  have happend : ∀ t, stripLineComments (a ++ t) = a ++ stripLineComments t :=
    stripLineCommentsFrom_append hslashes hslash haddress
  -- no block comment starts before the end of the line
  have hline : hasPair '/' '*' (a ++ '/' :: '/' :: c ++ ['\n']) = false :=
    hasPair_append (hasPair_append ha (by simpa [hasPair] using hopen) (by simp)) rfl (by simp)
  have hblock : stripBlockComments (a ++ '/' :: '/' :: (c ++ '\n' :: b)) =
      a ++ '/' :: '/' :: (c ++ '\n' :: stripBlockComments b) := by
    have hstrip := stripBlockComments_append (b := b) hline (by rw [List.getLast?_concat]; simp)
    simpa using hstrip
  apply parse_congr
  rw [hblock, stripBlockComments_append ha fun h => hslash h.1, happend, happend,
    stripLineComments_comment hc]

end Comments

/-- **A comment changes nothing that is read.** A block comment may stand behind any text in which
no other one starts, unless the texts around it would form the start of a new one. A line comment
may stand behind any text without comments, unless it would belong to an address there; no block
comment may start in it. What follows is arbitrary, and trees and errors are the same. -/
theorem parse_comment_eq (a c b : Text) :
    (hasPair '/' '*' a = false → hasPair '*' '/' c = false →
      ¬ (a.getLast? = some '/' ∧ b.head? = some '*') →
      parse (a ++ ['/', '*'] ++ c ++ ['*', '/'] ++ b) = parse (a ++ b)) ∧
    (hasPair '/' '*' a = false → hasPair '/' '/' a = false →
      (∀ e ∈ a.getLast?, e ≠ '/' ∧ e ≠ ':' ∧ e ≠ '(') → '\n' ∉ c →
      hasPair '/' '*' ('/' :: c) = false →
      parse (a ++ ['/', '/'] ++ c ++ ['\n'] ++ b) = parse (a ++ b)) := by
  constructor
  · intro ha hc hab
    simpa using parse_blockComment ha hc hab
  · intro ha hslashes hlast hc hopen
    simpa using parse_lineComment (b := b) ha hslashes hlast hc hopen

theorem parse_comment_eq_sampleComments :
    parse "p: q//*/ // /* **/r; /* s".toList = parse "p: q/r; /* s".toList ∧
      parse "p: url(q) // :// *\"/ r\n/* s */ t; // u".toList =
        parse "p: url(q) /* s */ t; // u".toList := by
  have hblock := (parse_comment_eq "p: q/".toList "/ // /* *".toList "r; /* s".toList).1
    (by decide) (by decide) (by decide)
  have hline := (parse_comment_eq "p: url(q) ".toList " :// *\"/ r".toList
    "/* s */ t; // u".toList).2 (by decide) (by decide) (by simp) (by decide) (by decide)
  exact ⟨hblock, hline⟩

end StyleRules
