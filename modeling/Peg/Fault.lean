import Peg.Quantity

/-! What can go wrong, by cause, and how each cause is told. -/
namespace Peg

inductive Fault
  /-- An operand is neither a parser nor a text. -/
  | operand (value : Value)
  /-- Something other than a parser is asked to do what parsers do. -/
  | notAParser
  /-- A function does not apply to the kind of value it was given. -/
  | mismatch
  | notOneCharacter (given : Text)
  | negativeMinimum (least : Quantity)
  | emptyRange (most least : Quantity)
  | malformedPattern
  /-- A character was asked for before the first one. -/
  | beforeText
  /-- A position so far before the text that no character is looked for there. -/
  | farBeforeText
  /-- A position that is too far from the text to be worked with. -/
  | positionTooFar
  | notAnInteger (given : Text)
  | tooManyDigits (longest count : Nat)
  /-- A whole number of too many digits to be told. -/
  | tooLongToTell (longest : Nat)
  | notANumber (given : Text)
  /-- No double is large enough for a whole number. -/
  | tooLargeForDouble
  /-- An infinite number has no whole part. -/
  | infinite
  /-- What is no number has no whole part. -/
  | undefined
  | divisionByZero
  | quotientByZero
  | unknownKey (key : Value)
  | notReady
  | boom
  /-- A parse that had to succeed did not; the text tells where and why. -/
  | parseFailed (report : Text)
  | raisedByHook (word : Text)
  | spansUnavailable
  /-- A request to end the program, with a status. -/
  | exit (status : Value)
  /-- A request from outside to end the program. -/
  | interrupt

namespace Fault

/-- Whether a fault is an error.  A request to end the program is none; it passes by whoever waits
for errors. -/
def isError : Fault → Bool
  | exit _ | interrupt => false
  | _ => true

/-- Advice for numbers of too many digits. -/
def raiseTheLimit : Text := "use sys.set_int_max_str_digits() to increase the limit".toList

def message : Fault → Text
  | operand v => "Expected a Parser or str, got ".toList ++ v.kindName ++ ": ".toList ++ v.written
  | notAParser => "the operand is no parser".toList
  | mismatch => "the value has the wrong kind".toList
  | notOneCharacter t => "Char expects a single character, got ".toList ++ t.quoted
  | negativeMinimum least => "min must be >= 0, got ".toList ++ least.written
  | emptyRange most least =>
    "max (".toList ++ most.written ++ ") must be >= min (".toList ++ least.written ++ [')']
  | malformedPattern => "the pattern is malformed".toList
  | beforeText => "string index out of range".toList
  | farBeforeText => "cannot fit 'int' into an index-sized integer".toList
  | positionTooFar => "the position is too far from the text".toList
  | notAnInteger t => "invalid literal for int() with base 10: ".toList ++ t.quoted.take 200
  | tooManyDigits longest count =>
    "Exceeds the limit (".toList ++ Text.ofNat longest
      ++ " digits) for integer string conversion: value has ".toList ++ Text.ofNat count
      ++ " digits; ".toList ++ raiseTheLimit
  | tooLongToTell longest =>
    "Exceeds the limit (".toList ++ Text.ofNat longest
      ++ " digits) for integer string conversion; ".toList ++ raiseTheLimit
  | notANumber t => "could not convert string to float: ".toList ++ t.quoted
  | tooLargeForDouble => "int too large to convert to float".toList
  | infinite => "cannot convert float infinity to integer".toList
  | undefined => "cannot convert float NaN to integer".toList
  | divisionByZero => "division by zero".toList
  | quotientByZero => "integer division or modulo by zero".toList
  | unknownKey key => key.written
  | notReady => "not ready".toList
  | boom => "boom".toList
  | parseFailed report => report
  | raisedByHook word => word
  | spansUnavailable =>
    "OpenTelemetry is not installed. Install it with: pip install opentelemetry-api".toList
  | exit status =>
    match status with
    | .none => []
    | .str t => t
    | v => v.written
  | interrupt => []

/-- The text of a fault, or the fault of telling it: a key that was not found is written when the
fault is told, and it may hold a whole number of more than `longest` digits. -/
def told (longest : Option Nat) (f : Fault) : Except Fault Text :=
  match longest, f with
  | some n, unknownKey key => if key.exceeds n then .error (.tooLongToTell n) else .ok f.message
  | _, _ => .ok f.message

end Fault
end Peg
