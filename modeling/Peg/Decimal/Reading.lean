import Peg.Text.Class

/-! Numbers read from texts.  A whole number is an optional sign and digits of any script, with
single underscores between digits and blanks around it.  A real number is an optional sign, digits
with an optional point and fraction, and an optional exponent, or one of the words for what is not
finite. -/
namespace Peg.Decimal

/-- Blanks around a number: below 128 the space and the controls that move the pen, above it white
space of any kind. -/
def isBlank (c : Char) : Bool :=
  if c.toNat < 128 then c = ' ' || (9 ≤ c.toNat && c.toNat ≤ 13) else Text.isBlank c

def trimStart (t : Text) : Text := t.dropWhile isBlank

def trim (t : Text) : Text := (trimStart (trimStart t).reverse).reverse

/-- The sign before a number, and what follows it. -/
def sign : Text → Bool × Text
  | '-' :: r => (true, r)
  | '+' :: r => (false, r)
  | r => (false, r)

/-- What begins a text as a whole number: how many digits, their value, and what follows them. -/
structure Digits where
  count : Nat
  value : Nat
  rest : Text

/-- Reads on after a digit; an underscore stands between two digits only. -/
def moreDigits (count value : Nat) : Text → Option Digits
  | [] => some ⟨count, value, []⟩
  | ['_'] => none
  | '_' :: c :: r => (Text.digitValue? c).bind fun d => moreDigits (count + 1) (10 * value + d) r
  | c :: r =>
    match Text.digitValue? c with
    | some d => moreDigits (count + 1) (10 * value + d) r
    | none => some ⟨count, value, c :: r⟩

def digits? : Text → Option Digits
  | [] => none
  | c :: r => (Text.digitValue? c).bind fun d => moreDigits 1 d r

/-- Why a text gives no whole number. -/
inductive Flaw
  | malformed
  | tooManyDigits (count : Nat)

/-- The whole number that a text says, of at most so many digits when there is a limit.  Digits are
counted up to the first other character, whatever follows it. -/
def integer (longest : Option Nat) (t : Text) : Except Flaw Int :=
  let (negative, r) := sign (trim t)
  match digits? r with
  | none => .error .malformed
  | some d =>
    if longest.any (· < d.count) then .error (.tooManyDigits d.count)
    else if d.rest ≠ [] then .error .malformed
    else .ok (if negative then -d.value else d.value)

/-- The value of a run of digits. -/
def digitsValue (t : Text) : Nat := t.foldl (fun n c => 10 * n + (c.toNat - 48)) 0

/-- The double nearest to `digits * 10 ^ ten`; far outside the range of doubles the power is not
worked out. -/
def nearest (digits : Nat) (ten : Int) : Float :=
  let size := (Nat.toDigits 10 digits).length + ten
  if digits = 0 || size < -400 then 0.0
  else if size > 400 then 1.0 / 0.0
  else if ten < 0 then Float.ofScientific digits true (-ten).toNat
  else Float.ofScientific digits false ten.toNat

/-- The double nearest to a whole number. -/
def ofInt (n : Int) : Float := if n < 0 then -nearest n.natAbs 0 else nearest n.natAbs 0

/-- A number with the usual digits for those of any script, and without the underscores between
digits; there is none when an underscore stands elsewhere. -/
def plain? (afterDigit : Bool) : Text → Option Text
  | [] => some []
  | ['_'] => none
  | '_' :: c :: r =>
    if afterDigit then
      (Text.digitValue? c).bind fun d => (plain? true r).map (Char.ofNat (48 + d) :: ·)
    else none
  | c :: r =>
    match Text.digitValue? c with
    | some d => (plain? true r).map (Char.ofNat (48 + d) :: ·)
    | none => (plain? false r).map (c :: ·)

def exponent? : Text → Option Int
  | [] => some 0
  | e :: r =>
    if e = 'e' ∨ e = 'E' then
      let (negative, digits) := sign r
      if digits ≠ [] ∧ digits.all Char.isDigit then
        some (if negative then -digitsValue digits else digitsValue digits)
      else none
    else none

/-- The digits after a point, and what follows them. -/
def fraction : Text → Text × Text
  | '.' :: r => (r.takeWhile Char.isDigit, r.dropWhile Char.isDigit)
  | r => ([], r)

/-- A number without its sign. -/
def unsigned? (t : Text) : Option Float :=
  let word := t.map Char.toLower
  if word = "inf".toList ∨ word = "infinity".toList then some (1.0 / 0.0)
  else if word = "nan".toList then some (0.0 / 0.0)
  else
    let whole := t.takeWhile Char.isDigit
    let (fraction, rest) := fraction (t.dropWhile Char.isDigit)
    if whole = [] ∧ fraction = [] then none
    else (exponent? rest).map fun e =>
      nearest (digitsValue (whole ++ fraction)) (e - fraction.length)

/-- The double nearest to the number that a text says. -/
def real? (t : Text) : Option Float :=
  (plain? false (trim t)).bind fun r =>
    let (negative, r) := sign r
    (unsigned? r).map fun x => if negative then -x else x

end Peg.Decimal
