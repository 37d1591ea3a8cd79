import StyleRules.Text.Blank

/-!
# Selectors

A selector list is text whose alternatives are separated by commas outside parentheses. Nested
blocks give a path of selector lists, outermost first, which is flattened into one list.

* `normalize`: a selector with single spaces between its words;
* `alternatives`: the pieces between the commas outside parentheses;
* `nest`: one alternative inside one enclosing selector, for which the placeholder `&` stands;
* **`combine`**: the flattened selector list of a path.
-/

namespace StyleRules.Selector

/-! ## Normal form -/

/-- The words of `t` with one space between them. -/
def normalize (t : Text) : Text := Text.join [' '] t.words

@[simp] theorem normalize_nil : normalize [] = [] := rfl

/-! ## Alternatives -/

/-- The parenthesis depth after `c`; a closing parenthesis at depth zero is ignored. -/
def depthAfter (depth : Nat) (c : Char) : Nat :=
  if c = '(' then depth + 1 else if c = ')' then depth - 1 else depth

/-- The pieces between the commas at depth zero, reading from the given depth. -/
def alternativesFrom : Nat → Text → List Text
  | _, [] => [[]]
  | depth, c :: t =>
    if c = ',' ∧ depth = 0 then [] :: alternativesFrom 0 t
    else (alternativesFrom (depthAfter depth c) t).modifyHead (c :: ·)

/-- The pieces of a selector list between its commas outside parentheses, blanks included. -/
def alternatives (t : Text) : List Text := alternativesFrom 0 t

theorem alternativesFrom_ne_nil (depth : Nat) (t : Text) : alternativesFrom depth t ≠ [] := by
  induction t generalizing depth with
  | nil => simp [alternativesFrom]
  | cons c t ih =>
    rw [alternativesFrom]
    split
    · simp
    · simpa [List.modifyHead_eq_nil_iff] using ih _

/-- Joining the pieces with commas gives the text back. -/
theorem join_alternativesFrom (depth : Nat) (t : Text) :
    Text.join [','] (alternativesFrom depth t) = t := by
  induction t generalizing depth with
  | nil => rfl
  | cons c t ih =>
    rw [alternativesFrom]
    split
    · rename_i h
      rcases hp : alternativesFrom 0 t with _ | ⟨p, ps⟩
      · exact absurd hp (alternativesFrom_ne_nil 0 t)
      · rw [Text.join_cons_cons, ← hp, ih, h.1]
        rfl
    · rcases hp : alternativesFrom (depthAfter depth c) t with _ | ⟨p, ps⟩
      · exact absurd hp (alternativesFrom_ne_nil _ t)
      · have := ih (depthAfter depth c)
        rw [hp] at this
        cases ps with
        | nil => simpa using this
        | cons q qs =>
          rw [Text.join_cons_cons] at this
          rw [List.modifyHead_cons, Text.join_cons_cons, ← this]
          rfl

/-! ## Nesting -/

/-- The character that stands for the enclosing selector. -/
def placeholder : Char := '&'

/-- `t` with every placeholder replaced by `outer`. -/
def substitute (outer t : Text) : Text := t.flatMap fun c => if c = placeholder then outer else [c]

/-- One alternative inside one enclosing selector: each placeholder is replaced by the enclosing
selector, and an alternative without placeholder is its descendant. -/
def nest (outer inner : Text) : Text :=
  normalize (if placeholder ∈ inner then substitute outer inner else outer ++ ' ' :: inner)

/-- Every alternative of `segment` inside every one of `outers`, the latter varying slowest. -/
def nestAll (outers : List Text) (segment : Text) : List Text :=
  outers.flatMap fun outer => (alternatives segment).map (nest outer)

/-- The selectors that a path with the given first and further segments stands for, with
repetitions. -/
def product (first : Text) (rest : List Text) : List Text :=
  rest.foldl nestAll ((alternatives first).map normalize)

/-- **The flattened selector list of a path**, outermost segment first. A single segment is only
normalized; otherwise the selectors of the path are listed once each, in order of their first
occurrence. The empty path has none. -/
def combine : List Text → Option Text
  | [] => none
  | [segment] => some (normalize segment)
  | first :: rest => some (Text.join [',', ' '] (product first rest).eraseDups)

theorem isSome_combine {path : List Text} (h : path ≠ []) : (combine path).isSome := by
  match path with
  | [] => exact absurd rfl h
  | [_] => rfl
  | _ :: _ :: _ => rfl

end StyleRules.Selector
