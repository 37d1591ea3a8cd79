import Mathlib.Tactic.Common
import StyleRules.Selector.Basic

/-!
# Splitting a selector list

A text is a selector list in one way only: its pieces are those between the commas outside
parentheses, where the depth is counted anew in each piece.

* `depthFrom`: the parenthesis depth at the end of a text;
* `NoOuterComma`: no comma stands outside parentheses;
* `alternatives_join_comma`: pieces that are joined by commas are read back;
* `alternativesFrom_spec`: what the pieces of a text are like;
* **`alternatives_eq_iff`**: the pieces of a text are the only ones of that kind.
-/

namespace StyleRules.Selector

/-- The parenthesis depth at the end of `t`, reading from the given depth. -/
def depthFrom (depth : Nat) (t : Text) : Nat := t.foldl depthAfter depth

/-- No comma of `t` stands at depth zero, reading from the given depth. -/
def NoOuterComma (depth : Nat) (t : Text) : Prop :=
  ∀ before after, t = before ++ ',' :: after → depthFrom depth before ≠ 0

theorem noOuterComma_nil (depth : Nat) : NoOuterComma depth [] := by
  intro before after h
  simp at h

theorem noOuterComma_cons {depth : Nat} {c : Char} {t : Text} :
    NoOuterComma depth (c :: t) ↔
      ¬ (c = ',' ∧ depth = 0) ∧ NoOuterComma (depthAfter depth c) t := by
  constructor
  · intro h
    refine ⟨?_, fun before after ht => ?_⟩
    · rintro ⟨rfl, rfl⟩
      exact h [] t rfl rfl
    · exact h (c :: before) after (by rw [ht, List.cons_append])
  · rintro ⟨hc, h⟩ before after ht
    cases before with
    | nil =>
      obtain ⟨rfl, -⟩ := List.cons.inj ht
      exact fun hdepth => hc ⟨rfl, hdepth⟩
    | cons d before =>
      obtain ⟨rfl, hrest⟩ := List.cons.inj ht
      exact h before after hrest

theorem forall_mem_dropLast_cons {p : Text → Prop} {piece : Text} {pieces : List Text} :
    (∀ t ∈ (piece :: pieces).dropLast, p t) ↔
      (pieces ≠ [] → p piece) ∧ ∀ t ∈ pieces.dropLast, p t := by
  cases pieces <;> simp

/-! ## Joined pieces -/

/-- A text without outer commas belongs to the first piece of what follows. -/
theorem alternativesFrom_append {depth : Nat} {s : Text} (h : NoOuterComma depth s) (t : Text) :
    alternativesFrom depth (s ++ t) =
      (alternativesFrom (depthFrom depth s) t).modifyHead (s ++ ·) := by
  induction s generalizing depth with
  | nil => exact (congrFun List.modifyHead_id _).symm
  | cons c s ih =>
    obtain ⟨hc, hs⟩ := noOuterComma_cons.mp h
    rw [List.cons_append, alternativesFrom, if_neg hc, ih hs, List.modifyHead_modifyHead]
    rfl

theorem alternativesFrom_of_noOuterComma {depth : Nat} {t : Text} (h : NoOuterComma depth t) :
    alternativesFrom depth t = [t] := by
  have happend := alternativesFrom_append h []
  rwa [List.append_nil, alternativesFrom, List.modifyHead_cons, List.append_nil] at happend

theorem alternatives_join_comma {pieces : List Text} (hne : pieces ≠ [])
    (hcomma : ∀ piece ∈ pieces, NoOuterComma 0 piece)
    (hdepth : ∀ piece ∈ pieces.dropLast, depthFrom 0 piece = 0) :
    alternatives (Text.join [','] pieces) = pieces := by
  induction pieces with
  | nil => exact absurd rfl hne
  | cons piece pieces ih =>
    obtain ⟨hpiece, hrest⟩ := List.forall_mem_cons.mp hcomma
    cases pieces with
    | nil =>
      rw [Text.join_singleton]
      exact alternativesFrom_of_noOuterComma hpiece
    | cons next pieces =>
      obtain ⟨hclosed, hdepth⟩ := forall_mem_dropLast_cons.mp hdepth
      have hnext := List.cons_ne_nil next pieces
      rw [Text.join_cons_cons, List.append_assoc, alternatives, alternativesFrom_append hpiece,
        hclosed hnext, List.singleton_append, alternativesFrom, if_pos ⟨rfl, rfl⟩, ← alternatives,
        ih hnext hrest hdepth, List.modifyHead_cons, List.append_nil]

/-! ## The pieces of a text -/

/-- The pieces have no outer comma, and all but the last end at depth zero; the first of them is
read from the given depth. -/
theorem alternativesFrom_spec (depth : Nat) (t : Text) :
    ∃ piece pieces, alternativesFrom depth t = piece :: pieces ∧ NoOuterComma depth piece ∧
      (pieces ≠ [] → depthFrom depth piece = 0) ∧ (∀ other ∈ pieces, NoOuterComma 0 other) ∧
      ∀ other ∈ pieces.dropLast, depthFrom 0 other = 0 := by
  induction t generalizing depth with
  | nil => exact ⟨[], [], rfl, noOuterComma_nil depth, by simp, by simp, by simp⟩
  | cons c t ih =>
    by_cases hc : c = ',' ∧ depth = 0
    · obtain ⟨piece, pieces, heq, hpiece, hclosed, hcomma, hdepth⟩ := ih 0
      refine ⟨[], piece :: pieces, ?_, noOuterComma_nil depth, fun _ => hc.2,
        List.forall_mem_cons.mpr ⟨hpiece, hcomma⟩, forall_mem_dropLast_cons.mpr ⟨hclosed, hdepth⟩⟩
      rw [alternativesFrom, if_pos hc, heq]
    · obtain ⟨piece, pieces, heq, hpiece, hclosed, hrest⟩ := ih (depthAfter depth c)
      refine ⟨c :: piece, pieces, ?_, noOuterComma_cons.mpr ⟨hc, hpiece⟩, hclosed, hrest⟩
      rw [alternativesFrom, if_neg hc, heq, List.modifyHead_cons]

theorem alternatives_spec (t : Text) :
    (∀ piece ∈ alternatives t, NoOuterComma 0 piece) ∧
      ∀ piece ∈ (alternatives t).dropLast, depthFrom 0 piece = 0 := by
  obtain ⟨piece, pieces, heq, hpiece, hclosed, hcomma, hdepth⟩ := alternativesFrom_spec 0 t
  rw [alternatives, heq]
  exact ⟨List.forall_mem_cons.mpr ⟨hpiece, hcomma⟩,
    forall_mem_dropLast_cons.mpr ⟨hclosed, hdepth⟩⟩

/-- **The pieces of a selector list.** They are the only texts, one or more, that give the list when
they are joined by commas, have no comma outside their own parentheses, and close all of these
except in the last one. A piece is not split any further. -/
theorem alternatives_eq_iff (t : Text) (pieces : List Text) :
    (alternatives t = pieces ↔
      pieces ≠ [] ∧ Text.join [','] pieces = t ∧ (∀ piece ∈ pieces, NoOuterComma 0 piece) ∧
        ∀ piece ∈ pieces.dropLast, depthFrom 0 piece = 0) ∧
      ∀ piece ∈ alternatives t, alternatives piece = [piece] := by
  refine ⟨⟨?_, ?_⟩, fun piece hp =>
    alternativesFrom_of_noOuterComma ((alternatives_spec t).1 piece hp)⟩
  · rintro rfl
    exact ⟨alternativesFrom_ne_nil 0 t, join_alternativesFrom 0 t, alternatives_spec t⟩
  · rintro ⟨hne, rfl, hcomma, hdepth⟩
    exact alternatives_join_comma hne hcomma hdepth

/-- A closing parenthesis too many is ignored, and one too few keeps the rest together. -/
example : alternatives "a), :is(b, c), d(e, f".toList =
    ["a)".toList, " :is(b, c)".toList, " d(e, f".toList] := by decide

end StyleRules.Selector
