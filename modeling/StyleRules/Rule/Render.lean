import StyleRules.Rule.Tree

/-!
# Rendering rule trees

* `RuleTree.renderEntry`, `RuleTree.renderEntries`: the text of entries at a nesting depth;
* **`RuleTree.segments`**: one text per top-level entry, or one for a tree of properties only;
* `RuleTree.render`: all segments in a row.

An indentation of zero puts everything on one line, a space standing for each line break.
-/

namespace StyleRules.RuleTree

/-- The indentation used where none is given. -/
def defaultIndentation : Nat := 2

/-- What follows every piece: a line break, or a space when nothing is indented. -/
def lineEnd (indentation : Nat) : Char := if indentation = 0 then ' ' else '\n'

/-- The blanks at the start of a line at the given nesting depth. -/
def margin (indentation depth : Nat) : Text := List.replicate (indentation * depth) ' '

mutual

/-- The text of one entry at a nesting depth. -/
def renderEntry (indentation depth : Nat) (key : Text) : RuleValue → Text
  | .leaf value =>
    margin indentation depth ++ key ++ ':' :: ' ' :: value ++ [';', lineEnd indentation]
  | .absent => margin indentation depth ++ key ++ [';', lineEnd indentation]
  | .node body =>
    margin indentation depth ++ key ++ [' ', '{', lineEnd indentation] ++
      renderEntries indentation (depth + 1) body ++
      margin indentation depth ++ ['}', lineEnd indentation]

/-- The texts of the entries at a nesting depth, in a row. -/
def renderEntries (indentation depth : Nat) : RuleTree → Text
  | [] => []
  | (key, value) :: rest =>
    renderEntry indentation depth key value ++ renderEntries indentation depth rest

end

/-- **The text of a tree, in pieces**: one for each top-level entry, a single one for a non-empty
tree of properties and statements only, none for the empty tree. -/
def segments (indentation : Nat) (t : RuleTree) : List Text :=
  if t.isEmpty then []
  else if isFlat t then [renderEntries indentation 0 t]
  else t.map fun entry => renderEntry indentation 0 entry.1 entry.2

/-- The text of a tree. -/
def render (indentation : Nat) (t : RuleTree) : Text := (segments indentation t).flatten

/-- The pieces of a tree in a row are its entries in a row. -/
theorem render_eq_renderEntries (indentation : Nat) (t : RuleTree) :
    render indentation t = renderEntries indentation 0 t := by
  have h : ∀ t : RuleTree,
      (t.map fun entry => renderEntry indentation 0 entry.1 entry.2).flatten =
        renderEntries indentation 0 t := by
    intro t
    induction t with
    | nil => rfl
    | cons entry rest ih =>
      obtain ⟨key, value⟩ := entry
      simp [renderEntries, ih]
  rw [render, segments]
  split
  · rename_i he
    rw [List.isEmpty_iff.1 he]
    rfl
  · split
    · simp
    · exact h t

end StyleRules.RuleTree
