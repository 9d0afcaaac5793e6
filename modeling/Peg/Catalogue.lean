import Peg.Parser
import Peg.Value.Equality
import Peg.Decimal.Reading

/-! Functions that a grammar can refer to by name: tests of a character, functions of a value,
functions of the items of a value, tests of a value, and choices of a parser by a value. -/
namespace Peg

/-- A function with the name it is shown under; some functions have none. -/
structure Named (α : Type) where
  name : Option Text
  act : α

namespace Named

variable {α : Type}

/-- The name shown, or a stand-in for a function without a name. -/
def shown (f : Named α) (otherwise : String) : Text := f.name.getD otherwise.toList

end Named

namespace Catalogue

/-- An entry is shown under its own name, but for the two that stand for functions made on the
spot: one is shown as such, the other has no name. -/
def named {α : Type} (name : String) (act : α) : Named α :=
  ⟨if name = "nameless" then none else if name = "lambda" then some "<lambda>".toList
    else some name.toList, act⟩

def characterTest? (name : String) : Option (Named (Char → Except Fault Bool)) :=
  (named name ·) <$> match name with
  | "isdigit" => some fun c => .ok c.isDigit
  | "isalpha" => some fun c => .ok c.isAlpha
  | "any_char" => some fun _ => .ok true
  | "no_char" => some fun _ => .ok false
  | "above_z" => some fun c => .ok ('z' < c)
  | "lambda" | "nameless" => some fun c => .ok (c == 'a')
  | "boom" => some fun _ => .error .boom
  | _ => none

/-- The whole number that a value says, of at most so many digits when there is a limit. -/
def toInteger (longest : Option Nat) : Value → Except Fault Value
  | .str t =>
    match Decimal.integer longest t with
    | .ok n => .ok (.int n)
    | .error .malformed => .error (.notAnInteger t)
    | .error (.tooManyDigits count) => .error (.tooManyDigits (longest.getD 0) count)
  | .float x =>
    match Decimal.truncate? x with
    | some n => .ok (.int n)
    | none => .error (if x == x then .infinite else .undefined)
  | v =>
    match v.asInt? with
    | some n => .ok (.int n)
    | none => .error .mismatch

/-- A number as a double. -/
def asFloat : Value → Except Fault Float
  | .float x => .ok x
  | v =>
    match v.asInt? with
    | some n =>
      let x := Decimal.ofInt n
      if x.isFinite then .ok x else .error .tooLargeForDouble
    | none => .error .mismatch

def toFloat : Value → Except Fault Value
  | .str t =>
    match Decimal.real? t with
    | some x => .ok (.float x)
    | none => .error (.notANumber t)
  | v => (asFloat v).map .float

def reverse : Value → Except Fault Value
  | .str t => .ok (.str t.reverse)
  | .list vs => .ok (.list vs.reverse)
  | .tuple vs => .ok (.tuple vs.reverse)
  | _ => .error .mismatch

def negate : Value → Except Fault Value
  | .float x => .ok (.float (-x))
  | v =>
    match v.asInt? with
    | some n => .ok (.int (-n))
    | none => .error .mismatch

/-- What a partial function of a value gives; where it gives nothing the value has the wrong
kind. -/
def partly (f : Value → Option Value) (v : Value) : Except Fault Value :=
  match f v with
  | some w => .ok w
  | none => .error .mismatch

/-- The most digits of a text that is read as a whole number. -/
def longest : Nat := 4300

def function? (name : String) : Option (Named (Value → Except Fault Value)) :=
  (named name ·) <$> match name with
  | "int" => some (toInteger longest)
  | "float" => some toFloat
  | "len" => some (partly fun v => v.size?.map fun n => .int n)
  | "list" => some (partly fun v => v.items?.map .list)
  | "tuple" => some (partly fun v => v.items?.map .tuple)
  | "ident" | "lambda" | "nameless" => some .ok
  | "none" => some fun _ => .ok .none
  | "const1" => some fun _ => .ok (.int 1)
  | "pair" => some fun v => .ok (.tuple [v, v])
  | "reverse" => some reverse
  | "neg" => some negate
  | "boom" => some fun _ => .error .boom
  | "keyerr" => some fun _ => .error (.unknownKey (.str ['k']))
  | "div0" => some fun _ => .error .divisionByZero
  | _ => none

/-- Arithmetic on two numbers: whole when both are whole. -/
def arithmetic (whole : Int → Int → Int) (real : Float → Float → Float) (v w : Value) :
    Except Fault Value :=
  match v.asInt?, w.asInt? with
  | some m, some n => .ok (.int (whole m n))
  | _, _ => do
    let x ← asFloat v
    let y ← asFloat w
    .ok (.float (real x y))

def add : Value → Value → Except Fault Value
  | .str s, .str t => .ok (.str (s ++ t))
  | .list vs, .list ws => .ok (.list (vs ++ ws))
  | .tuple vs, .tuple ws => .ok (.tuple (vs ++ ws))
  | v, w => arithmetic (· + ·) (· + ·) v w

/-- A product of two numbers, or a text, a list or a tuple so many times. -/
def times : Value → Value → Except Fault Value
  | .str t, w | w, .str t => many w fun n => .str (t.times n)
  | .list vs, w | w, .list vs => many w fun n => .list (List.replicate n vs).flatten
  | .tuple vs, w | w, .tuple vs => many w fun n => .tuple (List.replicate n vs).flatten
  | v, w => arithmetic (· * ·) (· * ·) v w
where
  many (count : Value) (f : Nat → Value) : Except Fault Value :=
    match count.asInt? with
    | some n => .ok (f n.toNat)
    | none => .error .mismatch

/-- The texts of all items, one after another. -/
def join : List Value → Except Fault Text
  | [] => .ok []
  | .str t :: vs => (join vs).map (t ++ ·)
  | _ :: _ => .error .mismatch

/-- A function of two items. -/
def binary (f : Value → Value → Except Fault Value) : List Value → Except Fault Value
  | [v, w] => f v w
  | _ => .error .mismatch

/-- Applies a function to the items of a value. -/
def spread (f : List Value → Except Fault Value) (v : Value) : Except Fault Value :=
  match v.items? with
  | some items => f items
  | none => .error .mismatch

def spreadFunction? (name : String) : Option (Named (Value → Except Fault Value)) :=
  (fun f => named name (spread f)) <$> match name with
  | "add" => some (binary add)
  | "sub" => some (binary (arithmetic (· - ·) (· - ·)))
  | "swap" => some (binary fun v w => .ok (.tuple [w, v]))
  | "join" => some fun vs => (join vs).map .str
  | "count" => some fun vs => .ok (.int vs.length)
  | "lambda" | "nameless" => some fun vs => .ok (.list vs)
  | "boom" => some fun _ => .error .boom
  | "div0" => some fun _ => .error .divisionByZero
  | _ => none

def isEven : Value → Except Fault Bool
  | .float x => .ok (Decimal.isEven x)
  | v =>
    match v.asInt? with
    | some n => .ok (n % 2 == 0)
    | none => .error .mismatch

def valueTest? (name : String) : Option (Named (Value → Except Fault Bool)) :=
  (named name ·) <$> match name with
  | "truthy" => some fun v => .ok v.truthy
  | "always" => some fun _ => .ok true
  | "never" => some fun _ => .ok false
  | "is_a" => some fun v => .ok (v.equal (.str ['a']))
  | "is_none" => some fun v => .ok (v.equal .none)
  | "is_even" => some isEven
  | "short" => some fun v =>
    match v.size? with
    | some n => .ok (n < 3)
    | none => .error .mismatch
  | "boom" => some fun _ => .error .boom
  | "lambda" | "nameless" => some fun v => .ok (!v.equal (.str ['b']))
  | _ => none

/-- A choice of a parser by a value; parsers that are made for the value stand below the node
that chooses, and some choices are between given parsers. -/
abbrev Choice := Ident → List Parser → Value → Except Fault Parser

/-- As many elements as the value says; a refusal tells the value. -/
def repeatedTimes : Choice := fun id given v =>
  match given, Quantity.ofValue? v with
  | p :: _, some n =>
    match Parser.between (.part 0 id) p n (some n) none with
    | .ok q => .ok q
    | .error f => .error (if v.exceeds longest then .tooLongToTell longest else f)
  | _, _ => .error .mismatch

/-- The word that the value is. -/
def sameWord : Choice := fun id _ v => (Terminal.ofValue v).map (Parser.terminal (.part 0 id))

def always : Choice := fun _ given _ =>
  match given with
  | p :: _ => .ok p
  | [] => .error .mismatch

/-- The parser that stands under the value in a table; the last one of equal keys counts. -/
def underKey (keys : List Text) : Choice := fun _ given v =>
  if v.isKey then
    match (keys.zip given).reverse.find? fun e => v.equal (.str e.1) with
    | some e => .ok e.2
    | none => .error (.unknownKey v)
  else .error .mismatch

def choice? (name : String) (keys : List Text) : Option (Named Choice) :=
  (named name ·) <$> match name with
  | "repeat_n" => some repeatedTimes
  | "same" | "nameless" => some sameWord
  | "const" => some always
  | "table" => some (underKey keys)
  | "boom" => some fun _ _ _ => .error .boom
  | _ => none

end Catalogue
end Peg
