/-! The parts of a double: a finite one is a whole number times a power of two.  Doubles as rational
numbers, and rational numbers as doubles. -/
namespace Peg.Decimal

/-- A finite double without its sign. -/
structure Binary where
  mantissa : Nat
  exponent : Int
  /-- Whether the neighbour below is only half as far as the one above. -/
  narrow : Bool

/-- The finite double behind the low 63 bits; none for the infinities and for what is no number. -/
def Binary.ofBits? (bits : Nat) : Option Binary :=
  let fraction : Nat := bits % Nat.pow 2 52
  let scale : Nat := bits / Nat.pow 2 52 % Nat.pow 2 11
  if scale = 2047 then none
  else if scale = 0 then some ⟨fraction, -1074, false⟩
  else some ⟨fraction + Nat.pow 2 52, (scale : Int) - 1075, fraction = 0 && scale > 1⟩

/-- The rational number that a finite double is. -/
def rational? (x : Float) : Option Rat :=
  let bits := x.toBits.toNat
  (Binary.ofBits? (bits % Nat.pow 2 63)).map fun b =>
    let size := mkRat (b.mantissa * Nat.pow 2 b.exponent.toNat) (Nat.pow 2 (-b.exponent).toNat)
    if Nat.pow 2 63 ≤ bits then -size else size

/-- The double for a rational number, by one division of two whole numbers. -/
def toFloat (q : Rat) : Float := Float.ofInt q.num / Float.ofNat q.den

/-- Whether a double is the given whole number. -/
def isInteger (x : Float) (n : Int) : Bool := rational? x == some (n : Rat)

/-- A finite double without what follows the point. -/
def truncate? (x : Float) : Option Int := (rational? x).map fun q => q.num.tdiv q.den

/-- Whether a double is an even whole number. -/
def isEven (x : Float) : Bool := (rational? x).any fun q => q.den = 1 && q.num % 2 = 0

end Peg.Decimal
