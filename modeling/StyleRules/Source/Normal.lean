import StyleRules.Source.Comment
import StyleRules.Text.Blank

/-!
# The normal form of style text

* `tightenCommas`: no space before a comma;
* **`normalForm`**: no comments, single spaces, no space before a comma.
-/

namespace StyleRules.Source

/-- The text without the space before each comma. -/
def tightenCommas : Text → Text
  | [] => []
  | c :: t => if c = ' ' ∧ t.head? = some ',' then tightenCommas t else c :: tightenCommas t

/-- **The normal form of a style text**: comments are removed, block comments first, then every run
of blanks becomes one space, then the space before a comma goes. -/
def normalForm (t : Text) : Text :=
  tightenCommas (Text.collapse (stripLineComments (stripBlockComments t)))

theorem tightenCommas_sublist (t : Text) : (tightenCommas t).Sublist t := by
  induction t with
  | nil => exact .slnil
  | cons c t ih =>
    rw [tightenCommas]
    split
    · exact ih.cons _
    · exact ih.cons_cons _

end StyleRules.Source
