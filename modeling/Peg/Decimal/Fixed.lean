import Peg.Text

/-! Rational numbers written with a fixed number of decimal places. -/
namespace Peg.Decimal

/-- The nearest whole number to a quotient; halves go to the even neighbour. -/
def roundToEven (a b : Nat) : Nat :=
  let twice := 2 * (a % b)
  if twice < b || twice = b && a / b % 2 = 0 then a / b else a / b + 1

/-- A rational number with so many digits after the point. -/
def fixed (places : Nat) (q : Rat) : Text :=
  let scaled := roundToEven (q.num.natAbs * Nat.pow 10 places) q.den
  let digits := Text.ofNat scaled
  let padded := List.replicate (places + 1 - digits.length) '0' ++ digits
  let whole := padded.length - places
  (if q.num < 0 then ['-'] else []) ++ padded.take whole
    ++ if places = 0 then [] else '.' :: padded.drop whole

end Peg.Decimal
