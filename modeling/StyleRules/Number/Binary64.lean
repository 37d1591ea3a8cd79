import StyleRules.Text.Basic

/-!
# Finite binary64 numbers

* `Binary64`: sign, mantissa and binary exponent of a finite number;
* `Binary64.eqv`: numeric equality, the two zeros being equal;
* `roundDiv`: a quotient rounded to the nearest integer, ties to even;
* **`Binary64.ofRatio?`**: the number nearest to a fraction;
* `Binary64.ofText?`: the number nearest to a plain decimal.
-/

namespace StyleRules

/-- Whether `mantissa * 2 ^ exponent` is the canonical form of a finite magnitude: 53 bits of
mantissa, the top one set unless the exponent is the least. -/
def IsCanonical (mantissa : Nat) (exponent : Int) : Prop :=
  mantissa < Nat.pow 2 53 ∧ -1074 ≤ exponent ∧ exponent ≤ 971 ∧
    (Nat.pow 2 52 ≤ mantissa ∨ exponent = -1074)

instance (mantissa : Nat) (exponent : Int) : Decidable (IsCanonical mantissa exponent) := by
  unfold IsCanonical
  infer_instance

/-- A finite binary64 number, `mantissa * 2 ^ exponent` with a sign. -/
structure Binary64 where
  negative : Bool
  mantissa : Nat
  exponent : Int
  /-- Every number has one form only. -/
  canonical : IsCanonical mantissa exponent
  deriving DecidableEq

namespace Binary64

/-- Numeric equality: the same number, or two zeros. -/
def eqv (x y : Binary64) : Bool := x.mantissa == 0 && y.mantissa == 0 || x == y

theorem eqv_iff {x y : Binary64} :
    eqv x y = true ↔ x.mantissa = 0 ∧ y.mantissa = 0 ∨ x = y := by
  simp [eqv]

@[simp] theorem eqv_refl (x : Binary64) : eqv x x = true := eqv_iff.2 (.inr rfl)

theorem eqv_symm {x y : Binary64} (h : eqv x y = true) : eqv y x = true :=
  eqv_iff.2 ((eqv_iff.1 h).imp And.symm Eq.symm)

theorem eqv_trans {x y z : Binary64} (hxy : eqv x y = true) (hyz : eqv y z = true) :
    eqv x z = true := by
  rcases eqv_iff.1 hxy with hxy | rfl
  · rcases eqv_iff.1 hyz with hyz | rfl
    · exact eqv_iff.2 (.inl ⟨hxy.1, hyz.2⟩)
    · exact eqv_iff.2 (.inl hxy)
  · exact hyz

/-! ## Rounding a fraction -/

/-- `numerator / denominator` rounded to the nearest integer, a tie to the even one. -/
def roundDiv (numerator denominator : Nat) : Nat :=
  let quotient := numerator / denominator
  let twice := 2 * (numerator % denominator)
  if twice < denominator ∨ twice = denominator ∧ quotient % 2 = 0 then quotient else quotient + 1

/-- The numerator and denominator of `numerator / denominator / 2 ^ exponent`. -/
def scaled (numerator denominator : Nat) (exponent : Int) : Nat × Nat :=
  (numerator * Nat.pow 2 (-exponent).toNat, denominator * Nat.pow 2 exponent.toNat)

/-- The exponent at which a positive fraction has a mantissa of 53 bits, or the least one. -/
def exponentOf (numerator denominator : Nat) : Int :=
  let estimate : Int := numerator.log2 - denominator.log2 - 52
  let (n, d) := scaled numerator denominator estimate
  max (-1074) (if n / d < Nat.pow 2 52 then estimate - 1 else estimate)

/-- **The number nearest to a fraction**, ties to the even mantissa; none beyond the largest
number. -/
def ofRatio? (negative : Bool) (numerator denominator : Nat) : Option Binary64 :=
  let exponent := if numerator = 0 then -1074 else exponentOf numerator denominator
  let (n, d) := scaled numerator denominator exponent
  let rounded := roundDiv n d
  let (mantissa, exponent) :=
    if rounded = Nat.pow 2 53 then (Nat.pow 2 52, exponent + 1) else (rounded, exponent)
  if h : IsCanonical mantissa exponent then some ⟨negative, mantissa, exponent, h⟩ else none

/-! ## Reading plain decimals -/

/-- The number that decimal digits stand for. -/
def ofDigits (digits : Text) : Nat :=
  digits.foldl (fun n c => 10 * n + (c.toNat - '0'.toNat)) 0

/-- The number nearest to a decimal such as `1.5`: digits, a point and digits. -/
def ofUnsignedText? (negative : Bool) (t : Text) : Option Binary64 :=
  let whole := t.takeWhile Char.isDigit
  match whole, t.dropWhile Char.isDigit with
  | _ :: _, '.' :: places =>
    if !places.isEmpty && places.all Char.isDigit then
      ofRatio? negative (ofDigits (whole ++ places)) (Nat.pow 10 places.length)
    else none
  | _, _ => none

/-- The number nearest to a decimal such as `-1.5`. -/
def ofText? : Text → Option Binary64
  | '-' :: t => ofUnsignedText? true t
  | t => ofUnsignedText? false t

end Binary64

end StyleRules
