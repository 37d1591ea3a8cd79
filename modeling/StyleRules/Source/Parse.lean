import StyleRules.Source.Builder
import StyleRules.Source.Normal

/-!
# Reading style text

* `Source.build`: the builder after all tokens of a text in normal form;
* **`parse`**: the rule tree of a style text.
-/

namespace StyleRules

/-- The builder after all tokens of a text in normal form. -/
def Source.build (normal : Text) : Except Error Builder := Builder.run {} (tokens normal)

/-- **The rule tree of a style text**, or nothing if the text is empty or holds no rules. -/
def parse (text : Text) : Except Error (Option RuleTree) :=
  if text.isEmpty then .ok none
  else
    let normal := Source.normalForm text
    (Source.build normal).bind fun b => b.finish normal.utf8Size

@[simp] theorem parse_nil : parse [] = .ok none := rfl

end StyleRules
