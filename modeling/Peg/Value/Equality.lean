import Peg.Value
import Peg.Decimal.Binary

/-! When two values count as equal: numbers by their worth, whatever their kind, dictionaries by
their entries in any order, all else by kind and parts. -/
namespace Peg.Value

def sameNumber : Value → Value → Bool
  | .float x, .float y => x == y
  | .float x, w => w.asInt?.any (Decimal.isInteger x)
  | v, .float y => v.asInt?.any (Decimal.isInteger y)
  | v, w => match v.asInt?, w.asInt? with
    | some m, some n => m == n
    | _, _ => false

mutual
def equal : Value → Value → Bool
  | .none, .none => true
  | .str s, .str t => s == t
  | .list vs, .list ws => equalAll vs ws
  | .tuple vs, .tuple ws => equalAll vs ws
  | .dict es, .dict fs => es.length == fs.length && entriesIn es fs
  | v, w => sameNumber v w

def equalAll : List Value → List Value → Bool
  | [], [] => true
  | v :: vs, w :: ws => equal v w && equalAll vs ws
  | _, _ => false

/-- Whether each entry has an equal one under the same key. -/
def entriesIn : List (Text × Value) → List (Text × Value) → Bool
  | [], _ => true
  | (k, v) :: es, fs => (match fs.lookup k with
    | some w => equal v w
    | Option.none => false) && entriesIn es fs
end

end Peg.Value
