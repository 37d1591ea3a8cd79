import StyleRules.Patch.Setter

/-!
# Histories of changes

* `History`: a target with the setters applied to it and their patches;
* `History.apply`, `History.restore`: one more step, noted in the log.
-/

namespace StyleRules

/-- A target and the log of what was done to it. -/
structure History where
  target : Value
  /-- Every setter with the patch that its step gave, in order. -/
  log : List (Setter × ChangeSet) := []

namespace History

/-- Notes a step of a setter: the new target, and the patch in the log. -/
def note (h : History) (s : Setter) (outcome : Value × ChangeSet) : History :=
  ⟨outcome.1, h.log ++ [(s, outcome.2)]⟩

/-- Applies a setter; the patch comes with the new history. -/
def apply (h : History) (s : Setter) : Except Error (ChangeSet × History) :=
  (s.apply h.target).map fun outcome => (outcome.2, h.note s outcome)

/-- Restores from a patch of the given setter; the patch of the restoration comes with the new
history. -/
def restore (h : History) (s : Setter) (patch : ChangeSet) : Except Error (ChangeSet × History) :=
  (Setter.restore patch h.target).map fun outcome => (outcome.2, h.note s outcome)

end History

end StyleRules
