import StyleRules.Number.Binary64

/-!
# Shortest decimals

A binary64 number is written with the fewest digits that read back as the number.

* `Binary64.readsBack`: whether a decimal lies among the reals that round to a number;
* `DecimalStyle`: how a decimal is chosen and laid out where that is free;
* **`Binary64.shortest`**: the fewest such digits, the nearest of them;
* `Binary64.styled`: the digits with a point, or with an exponent;
* `Binary64.text`: the text of a number as a value.
-/

namespace StyleRules

/-- What is free in the shortest decimal of a number. -/
structure DecimalStyle where
  /-- Of two decimals that are equally near, whether the one with an even last digit is taken;
  otherwise it is the larger one. -/
  tiesToEven : Bool
  /-- The least power of ten at the leading digit for which no exponent is written. -/
  leastPower : Int
  /-- Whether an exponent above zero has a sign. -/
  signsExponent : Bool
  deriving DecidableEq, Repr

namespace Binary64

/-- The order of `a * 10 ^ i` and `n * 2 ^ j`. -/
def compareScaled (a : Nat) (i : Int) (n : Nat) (j : Int) : Ordering :=
  compare (a * Nat.pow 10 i.toNat * Nat.pow 2 (-j).toNat)
    (n * Nat.pow 2 j.toNat * Nat.pow 10 (-i).toNat)

/-- Whether the gap to the next smaller magnitude is half the gap to the next larger one. -/
def isNarrowBelow (x : Binary64) : Bool := x.mantissa == Nat.pow 2 52 && x.exponent > -1074

/-- Whether `digits * 10 ^ exponent` lies among the reals that round to the magnitude of `x`, to
nearest and ties to even. -/
def readsBack (x : Binary64) (digits : Nat) (exponent : Int) : Bool :=
  let low := 4 * x.mantissa - if x.isNarrowBelow then 1 else 2
  let high := 4 * x.mantissa + 2
  let even := x.mantissa % 2 == 0
  let fromLow := compareScaled digits exponent low (x.exponent - 2)
  let fromHigh := compareScaled digits exponent high (x.exponent - 2)
  (fromLow == .gt || even && fromLow == .eq) && (fromHigh == .lt || even && fromHigh == .eq)

/-- The least `k` with `x < 10 ^ k` in magnitude, for a number other than zero. -/
def decimalScale (x : Binary64) : Int :=
  let estimate := (x.mantissa.log2 + x.exponent) * 30103 / 100000
  ([estimate - 1, estimate, estimate + 1].find? fun k =>
    compareScaled 1 k x.mantissa x.exponent == .gt).getD (estimate + 2)

/-- The largest `d` with `d * 10 ^ exponent` at most `x` in magnitude. -/
def floorAt (x : Binary64) (exponent : Int) : Nat :=
  (x.mantissa * Nat.pow 2 x.exponent.toNat * Nat.pow 10 (-exponent).toNat) /
    (Nat.pow 2 (-x.exponent).toNat * Nat.pow 10 exponent.toNat)

/-- The neighbour of `x` on the multiples of `10 ^ exponent` that reads back; of two, the nearer,
or if both are equally near, the one that the style asks for. -/
def neighbour? (style : DecimalStyle) (x : Binary64) (exponent : Int) : Option Nat :=
  let below := x.floorAt exponent
  match x.readsBack below exponent, x.readsBack (below + 1) exponent with
  | true, true =>
    match compareScaled (2 * below + 1) exponent (2 * x.mantissa) x.exponent with
    | .gt => some below
    | .lt => some (below + 1)
    | .eq => if style.tiesToEven && below % 2 == 0 then some below else some (below + 1)
  | true, false => some below
  | false, true => some (below + 1)
  | false, false => none

/-- **The shortest decimal**: the fewest digits, and their exponent, that read back as the
magnitude of `x`, which is not zero. Seventeen digits are enough; if they were not, the exact value
would be given. -/
def shortest (style : DecimalStyle) (x : Binary64) : Nat × Int :=
  let scale := x.decimalScale
  ((List.range 17).findSome? fun (n : Nat) =>
      let exponent := scale - (n + 1)
      (x.neighbour? style exponent).map fun digits => (digits, exponent)).getD
    (x.mantissa * Nat.pow 2 x.exponent.toNat * Nat.pow 5 (-x.exponent).toNat, min 0 x.exponent)

/-- Digits without trailing zeros, and the exponent that goes with them. -/
def significant (digits : Nat) (exponent : Int) : Text × Int :=
  let all := Nat.toDigits 10 digits
  let kept := (all.reverse.dropWhile (· == '0')).reverse
  (kept, exponent + (all.length - kept.length))

/-- Digits with a point: a whole number is followed by `.0`. -/
def positional (digits : Text) (exponent leading : Int) : Text :=
  if 0 ≤ exponent then digits ++ List.replicate exponent.toNat '0' ++ ['.', '0']
  else if 0 ≤ leading then
    digits.take (leading.toNat + 1) ++ '.' :: digits.drop (leading.toNat + 1)
  else '0' :: '.' :: (List.replicate (-leading - 1).toNat '0' ++ digits)

/-- An integer in decimal. -/
def integerText (n : Int) : Text :=
  if n < 0 then '-' :: Nat.toDigits 10 n.natAbs else Nat.toDigits 10 n.natAbs

/-- Digits with an exponent: a point follows the first digit if there are more. -/
def scientific (style : DecimalStyle) (digits : Text) (leading : Int) : Text :=
  let mantissa := match digits with
    | first :: second :: rest => first :: '.' :: second :: rest
    | short => short
  let sign := if style.signsExponent && 0 < leading then ['+'] else []
  mantissa ++ 'e' :: sign ++ integerText leading

/-- The text of the magnitude of `x`: with a point from the least power of the style on and below
`1e16`, otherwise with an exponent. -/
def magnitudeText (style : DecimalStyle) (x : Binary64) : Text :=
  if x.mantissa = 0 then ['0', '.', '0']
  else
    let (digits, exponent) := x.shortest style
    let (digits, exponent) := significant digits exponent
    let leading := exponent + digits.length - 1
    if style.leastPower ≤ leading ∧ leading < 16 then positional digits exponent leading
    else scientific style digits leading

/-- **A number in a style**: a sign, if negative, and the shortest decimal. -/
def styled (style : DecimalStyle) (x : Binary64) : Text :=
  if x.negative then '-' :: x.magnitudeText style else x.magnitudeText style

/-- Numbers as values: ties go up, and a point is enough from `1e-4` on. -/
def valueStyle : DecimalStyle := ⟨false, -4, false⟩

/-- The text of a number as a value. -/
def text (x : Binary64) : Text := x.styled valueStyle

end Binary64

end StyleRules
