import Mathlib.Tactic.Common
import StyleRules.Source.Comment

/-!
# Texts without comments

* `hasPair`: whether two characters stand next to each other somewhere;
* `keepsAddresses`: whether every `//` belongs to a web address;
* `Quiet`: a text with no comment in it; `Quiet.append`, `Quiet.cons`;
* **`Quiet.strip_eq`**: removing comments does nothing to it.
-/

namespace StyleRules.Source

/-- Whether `a` stands directly before `b` somewhere in a text. -/
def hasPair (a b : Char) : Text → Bool
  | [] => false
  | c :: t => (c == a && t.head? == some b) || hasPair a b t

/-- Whether every `//` of a text that follows the given character stands directly after `:` or
`(`. -/
def keepsAddresses : Option Char → Text → Bool
  | _, [] => true
  | before, c :: t =>
    (!(c == '/' && t.head? == some '/') || startsAddress before) && keepsAddresses (some c) t

/-- No block comment starts in the text, and every `//` belongs to a web address. -/
def Quiet (t : Text) : Prop := hasPair '/' '*' t = false ∧ keepsAddresses none t = true

theorem hasPair_of_not_mem {a b : Char} {t : Text} (h : b ∉ t) : hasPair a b t = false := by
  induction t with
  | nil => rfl
  | cons c t ih =>
    have ht : b ∉ t := fun hb => h (List.mem_cons_of_mem c hb)
    have hhead : t.head? ≠ some b := fun hb => ht (List.mem_of_head? hb)
    rw [hasPair, ih ht]
    simp [hhead]

theorem keepsAddresses_of_not_mem {before : Option Char} {t : Text} (h : '/' ∉ t) :
    keepsAddresses before t = true := by
  induction t generalizing before with
  | nil => rfl
  | cons c t ih =>
    have hc : c ≠ '/' := fun hc => h (hc ▸ List.mem_cons_self)
    rw [keepsAddresses, ih fun ht => h (List.mem_cons_of_mem c ht)]
    simp [hc]

theorem hasPair_of_left_not_mem {a b : Char} {t : Text} (h : a ∉ t) : hasPair a b t = false := by
  induction t with
  | nil => rfl
  | cons c t ih =>
    rw [List.mem_cons, not_or] at h
    rw [hasPair, ih h.2]
    simp [Ne.symm h.1]

/-- Without a slash there is no comment. -/
theorem quiet_of_not_mem {t : Text} (h : '/' ∉ t) : Quiet t :=
  ⟨hasPair_of_left_not_mem h, keepsAddresses_of_not_mem h⟩

/-! ## Joining quiet texts -/

theorem hasPair_append {a b : Char} {s t : Text} (hs : hasPair a b s = false)
    (ht : hasPair a b t = false) (hb : t.head? ≠ some b) : hasPair a b (s ++ t) = false := by
  induction s with
  | nil => exact ht
  | cons c s ih =>
    rw [hasPair, Bool.or_eq_false_iff] at hs
    rw [List.cons_append, hasPair, ih hs.2, Bool.or_false]
    cases s with
    | nil => simp [hb]
    | cons d s => exact hs.1

/-- What stands before a text matters only if the text starts with `//`. -/
theorem keepsAddresses_of_head {t : Text} (h : t.head? ≠ some '/') (before other : Option Char) :
    keepsAddresses before t = keepsAddresses other t := by
  cases t with
  | nil => rfl
  | cons c t =>
    have hc : (c == '/') = false := by simpa using h
    rw [keepsAddresses, keepsAddresses, hc]
    rfl

theorem keepsAddresses_congr {before other : Option Char}
    (h : startsAddress before = startsAddress other) (t : Text) :
    keepsAddresses before t = keepsAddresses other t := by
  cases t with
  | nil => rfl
  | cons c t => rw [keepsAddresses, keepsAddresses, h]

theorem keepsAddresses_append {before : Option Char} {s t : Text}
    (hs : keepsAddresses before s = true) (ht : keepsAddresses none t = true)
    (hh : t.head? ≠ some '/') : keepsAddresses before (s ++ t) = true := by
  induction s generalizing before with
  | nil => rwa [List.nil_append, keepsAddresses_of_head hh before none]
  | cons c s ih =>
    rw [keepsAddresses, Bool.and_eq_true] at hs
    rw [List.cons_append, keepsAddresses, ih hs.2, Bool.and_true]
    cases s with
    | nil => simp [hh]
    | cons d s => exact hs.1

theorem Quiet.append {s t : Text} (hs : Quiet s) (ht : Quiet t)
    (hh : t.head? ≠ some '/' ∧ t.head? ≠ some '*') : Quiet (s ++ t) :=
  ⟨hasPair_append hs.1 ht.1 hh.2, keepsAddresses_append hs.2 ht.2 hh.1⟩

/-- A character that neither starts a comment nor an address goes before any quiet text. -/
theorem Quiet.cons {c : Char} (hc : c ≠ '/') (ha : startsAddress (some c) = false) {t : Text}
    (ht : Quiet t) : Quiet (c :: t) := by
  have hb : (c == '/') = false := by simpa using hc
  refine ⟨by rw [hasPair, hb, ht.1]; rfl, ?_⟩
  rw [keepsAddresses, hb, (keepsAddresses_congr ha t : _ = keepsAddresses none t), ht.2]
  rfl

/-! ## Removing comments -/

theorem stripBlockComments_of_hasPair {t : Text} (h : hasPair '/' '*' t = false) :
    stripBlockComments t = t := by
  unfold stripBlockComments
  induction t with
  | nil => rfl
  | cons c t ih =>
    rw [hasPair, Bool.or_eq_false_iff] at h
    rw [stripBlockCommentsFrom, ih h.2]
    rintro t' rfl rfl
    exact absurd h.1 (by simp)

theorem stripLineCommentsFrom_of_keepsAddresses {before : Option Char} {t : Text}
    (h : keepsAddresses before t = true) : stripLineCommentsFrom (.code before) t = t := by
  match t with
  | [] => rfl
  | c :: t =>
    have hrest := (Bool.and_eq_true_iff.mp h).2
    by_cases hslash : c = '/' ∧ t.head? = some '/'
    · -- two slashes of an address; the reader goes on as at the start of a text
      obtain ⟨rfl, ht⟩ := hslash
      obtain ⟨t', rfl⟩ : ∃ t', t = '/' :: t' := List.head?_eq_some_iff.mp ht
      have hstart : startsAddress before = true := by simpa using (Bool.and_eq_true_iff.mp h).1
      have hnone : keepsAddresses none t' = true := by
        rw [← (Bool.and_eq_true_iff.mp hrest).2]
        exact keepsAddresses_congr (show startsAddress none = startsAddress (some '/') by decide) t'
      rw [stripLineCommentsFrom, if_pos hstart, stripLineCommentsFrom_of_keepsAddresses hnone]
    · rw [stripLineCommentsFrom, stripLineCommentsFrom_of_keepsAddresses hrest]
      rintro t' rfl rfl
      exact hslash ⟨rfl, rfl⟩

/-- **Removing comments does nothing to a quiet text.** -/
theorem Quiet.strip_eq {t : Text} (h : Quiet t) :
    stripLineComments (stripBlockComments t) = t := by
  rw [stripBlockComments_of_hasPair h.1]
  exact stripLineCommentsFrom_of_keepsAddresses h.2

end StyleRules.Source
