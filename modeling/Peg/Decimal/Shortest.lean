import Peg.Text
import Peg.Decimal.Binary

/-! The shortest decimal that reads back as a given double.
A finite double is `mantissa * 2 ^ exponent`; the reals nearer to it than to its neighbours form
an interval, and the decimals of one, two, three digits and so on are tried until one lies
inside. -/
namespace Peg.Decimal

/-- The interval of reals that round to a double, in quarters of its last place. -/
structure Interval where
  low : Nat
  middle : Nat
  high : Nat
  closed : Bool
  unit : Int

def Binary.interval (b : Binary) : Interval where
  low := 4 * b.mantissa - (if b.narrow then 1 else 2)
  middle := 4 * b.mantissa
  high := 4 * b.mantissa + 2
  closed := b.mantissa % 2 = 0
  unit := b.exponent - 2

/-- Numerator and denominator of `n * 2 ^ two * 10 ^ ten`. -/
def ratio (n : Nat) (two ten : Int) : Nat × Nat :=
  (n * Nat.pow 2 two.toNat * Nat.pow 10 ten.toNat, Nat.pow 2 (-two).toNat * Nat.pow 10 (-ten).toNat)

/-- Whether `digits * 10 ^ ten` lies in the interval. -/
def Interval.holds (v : Interval) (digits : Nat) (ten : Int) : Bool :=
  let (a, b) := ratio digits (-v.unit) ten
  if v.closed then v.low * b ≤ a && a ≤ v.high * b else v.low * b < a && a < v.high * b

/-- The decimal on the grid `10 ^ ten` that lies in the interval and nearest to its middle. -/
def Interval.onGrid? (v : Interval) (ten : Int) : Option Nat :=
  let (a, b) := ratio v.middle v.unit (-ten)
  let below := a / b
  match v.holds below ten, v.holds (below + 1) ten with
  | false, false => none
  | true, false => some below
  | false, true => some (below + 1)
  | true, true =>
    let twice := 2 * (a % b)
    if twice < b || twice = b && below % 2 = 0 then some below else some (below + 1)

/-- How many digits stand before the point, negative for zeros that follow it. -/
def magnitude (v : Interval) : Int :=
  let (a, b) := ratio v.middle v.unit 0
  if b ≤ a then (Nat.toDigits 10 (a / b)).length
  else
    let (c, d) := (b, a)
    let k := (Nat.toDigits 10 (c / d)).length
    if d * Nat.pow 10 (k - 1) = c then 2 - k else 1 - k

/-- Digits and power of ten of the shortest decimal, tried from `count` digits on. -/
def shortestFrom (v : Interval) (size : Int) : Nat → Nat → Nat × Int
  | 0, count => ((v.onGrid? (size - count)).getD 0, size - count)
  | fuel + 1, count =>
    match v.onGrid? (size - count) with
    | some digits => (digits, size - count)
    | none => shortestFrom v size fuel (count + 1)

/-- Digits without zeros at the end, and how many of them stand before the point. -/
def shortest (b : Binary) : Text × Int :=
  let v := b.interval
  let (digits, ten) := shortestFrom v (magnitude v) 16 1
  let written := Text.ofNat digits
  ((written.reverse.dropWhile (· == '0')).reverse, written.length + ten)

/-- Positional from `0.0001` up to sixteen digits before the point, with `.0` for a whole number;
otherwise one digit before the point and an exponent of at least two digits. -/
def place (digits : Text) (point : Int) : Text :=
  let zeros (n : Int) : Text := List.replicate n.toNat '0'
  if -4 < point ∧ point ≤ 16 then
    if point ≤ 0 then "0.".toList ++ zeros (-point) ++ digits
    else if (digits.length : Int) ≤ point then digits ++ zeros (point - digits.length) ++ ".0".toList
    else digits.take point.toNat ++ '.' :: digits.drop point.toNat
  else
    let exponent := point - 1
    let size := Text.ofNat exponent.natAbs
    digits.take 1 ++ (if digits.length ≤ 1 then [] else '.' :: digits.drop 1)
      ++ ['e', if exponent < 0 then '-' else '+'] ++ zeros (2 - size.length) ++ size

/-- The shortest text that reads back as the same double. -/
def ofFloat (x : Float) : Text :=
  let bits := x.toBits.toNat
  let sign : Text := if Nat.pow 2 63 ≤ bits then ['-'] else []
  match Binary.ofBits? (bits % Nat.pow 2 63) with
  | none => if bits % Nat.pow 2 52 = 0 then sign ++ "inf".toList else "nan".toList
  | some b =>
    if b.mantissa = 0 then sign ++ "0.0".toList
    else let (digits, point) := shortest b; sign ++ place digits point

end Peg.Decimal
