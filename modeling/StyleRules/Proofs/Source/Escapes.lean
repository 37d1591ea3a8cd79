import Mathlib.Algebra.Ring.Parity
import StyleRules.Proofs.Source.Legible

/-!
# Escapes by parity

A character is hidden if and only if an odd number of backslashes stands directly before it.

* `backslashes`: the number of backslashes at the end of a text;
* **`endsEscaped_iff_odd`**: a text hides the next character if that number is odd;
* `odd_backslashes_of_isCutFree`: in a text without cuts every delimiter is hidden;
* `hasPair_iff_isInfix`: two characters side by side.
-/

namespace StyleRules.Source

/-- The number of backslashes at the end of a text. -/
def backslashes (t : Text) : Nat := (t.reverse.takeWhile (· = '\\')).length

theorem backslashes_concat (t : Text) (c : Char) :
    backslashes (t ++ [c]) = if c = '\\' then backslashes t + 1 else 0 := by
  unfold backslashes
  rw [List.reverse_append, List.reverse_singleton, List.singleton_append, List.takeWhile_cons]
  split_ifs with hc <;> simp_all

theorem endsEscaped_concat (t : Text) (c : Char) :
    endsEscaped (t ++ [c]) = (c == '\\' && !endsEscaped t) := by
  fun_induction endsEscaped t with
  | case1 => by_cases hc : c = '\\' <;> simp [endsEscaped, hc]
  | case2 => simp [endsEscaped]
  | case3 d t ih => exact ih
  | case4 d t hne hne' ih =>
    have hd : d ≠ '\\' := by
      rintro rfl
      cases t with
      | nil => exact hne rfl rfl
      | cons e t => exact hne' e t rfl rfl
    rw [List.cons_append, endsEscaped_cons hd, ih]

/-- **A text hides the next character if and only if it ends with an odd number of backslashes.** -/
theorem endsEscaped_iff_odd (t : Text) : endsEscaped t = true ↔ Odd (backslashes t) := by
  induction t using List.reverseRecOn with
  | nil => simp [endsEscaped, backslashes]
  | append_singleton t c ih =>
    rw [endsEscaped_concat, backslashes_concat]
    by_cases hc : c = '\\'
    · rw [if_pos hc, Nat.odd_add_one, ← ih]
      simp [hc]
    · simp [hc]

theorem odd_backslashes_of_isCutFree {before after : Text} {d : Char} {delimiter : Delimiter}
    (h : isCutFree (before ++ d :: after) = true) (hd : Delimiter.ofChar? d = some delimiter) :
    Odd (backslashes before) := by
  rw [← endsEscaped_iff_odd]
  by_contra hesc
  have hne : d ≠ '\\' := by rcases delimiter_cases hd with rfl | rfl | rfl <;> decide
  rw [isCutFree_append (by simpa using hesc), isCutFree_cons hne, hd] at h
  simp at h

theorem hasPair_iff_isInfix {a b : Char} {t : Text} : hasPair a b t = true ↔ [a, b] <:+: t := by
  induction t with
  | nil => simp [hasPair]
  | cons c t ih =>
    rw [hasPair, Bool.or_eq_true, ih, List.infix_cons_iff, List.cons_prefix_cons]
    cases t with
    | nil => simp
    | cons d t => simp [eq_comm (a := a), eq_comm (a := b)]

end StyleRules.Source
