import Peg.Value
import Peg.Text.Quoted
import Peg.Decimal.Shortest

/-! The written form of a value, and the word for its kind. -/
namespace Peg.Value

/-- The word for a value's kind. -/
def kindName : Value → Text
  | .none => "NoneType".toList
  | .bool _ => "bool".toList
  | .int _ => "int".toList
  | .float _ => "float".toList
  | .str _ => "str".toList
  | .list _ => "list".toList
  | .tuple _ => "tuple".toList
  | .dict _ => "dict".toList

mutual
/-- Brackets stand around a list, parentheses around a tuple and braces around a dictionary; a
tuple of one item keeps its comma. -/
def written : Value → Text
  | .none => "None".toList
  | .bool b => if b then "True".toList else "False".toList
  | .int n => Text.ofInt n
  | .float x => Decimal.ofFloat x
  | .str t => t.quoted
  | .list vs => '[' :: Text.joinWith ", ".toList (writtenAll vs) ++ [']']
  | .tuple [v] => '(' :: written v ++ ",)".toList
  | .tuple vs => '(' :: Text.joinWith ", ".toList (writtenAll vs) ++ [')']
  | .dict es => '\x7b' :: Text.joinWith ", ".toList (writtenEntries es) ++ ['\x7d']

def writtenAll : List Value → List Text
  | [] => []
  | v :: vs => written v :: writtenAll vs

def writtenEntries : List (Text × Value) → List Text
  | [] => []
  | (k, v) :: es => (k.quoted ++ ": ".toList ++ written v) :: writtenEntries es
end

end Peg.Value
