import StyleRules.Number.Shortest

/-!
# Numbers

* `Number`: an integer, or a finite binary64 number;
* `Number.eqv`: equality of numbers of one kind; an integer never equals a binary64 number;
* `Number.styled`: the text of a number in a style.
-/

namespace StyleRules

/-- An integer, or a finite binary64 number. -/
inductive Number where
  | int (n : Int)
  /-- A finite binary64 number. -/
  | float (x : Binary64)
  deriving DecidableEq

namespace Number

/-- Equality of numbers: integers by value, binary64 numbers by value with equal zeros. -/
def eqv : Number → Number → Bool
  | int m, int n => m == n
  | float x, float y => x.eqv y
  | _, _ => false

@[simp] theorem eqv_refl (n : Number) : eqv n n = true := by
  cases n <;> simp [eqv]

theorem eqv_symm {m n : Number} (h : eqv m n = true) : eqv n m = true := by
  cases m <;> cases n <;> simp_all [eqv, Binary64.eqv_symm]

theorem eqv_trans {l m n : Number} (hlm : eqv l m = true) (hmn : eqv m n = true) :
    eqv l n = true := by
  cases l <;> cases m <;> cases n <;> simp_all [eqv]
  exact Binary64.eqv_trans hlm hmn

/-- The text of a number in a style. -/
def styled (style : DecimalStyle) : Number → Text
  | int n => Binary64.integerText n
  | float x => x.styled style

end Number

end StyleRules
