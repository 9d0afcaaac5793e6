import Peg.Text

/-! The values that parsing produces. -/
namespace Peg

/-- A value: nothing, a truth value, a number, a text, a list, a tuple, or a dictionary in the
order of its keys' first appearance. -/
inductive Value
  | none
  | bool (b : Bool)
  | int (n : Int)
  | float (x : Float)
  | str (t : Text)
  | list (items : List Value)
  | tuple (items : List Value)
  | dict (entries : List (Text × Value))

instance : Inhabited Value := ⟨.none⟩

namespace Value

/-- The whole number that a value counts as in arithmetic; a truth value is zero or one. -/
def asInt? : Value → Option Int
  | .bool b => some (if b then 1 else 0)
  | .int n => some n
  | _ => Option.none

/-- The items that a value gives when it is taken apart; a text gives its characters and a
dictionary its keys. -/
def items? : Value → Option (List Value)
  | .str t => some (t.map fun c => .str [c])
  | .list vs | .tuple vs => some vs
  | .dict es => some (es.map fun e => .str e.1)
  | _ => Option.none

/-- How many items a value holds. -/
def size? (v : Value) : Option Nat := v.items?.map List.length

/-- Nothing, zero and whatever is empty count as false. -/
def truthy : Value → Bool
  | .none => false
  | .bool b => b
  | .int n => n != 0
  | .float x => x != 0.0
  | .str t => !t.isEmpty
  | .list vs | .tuple vs => !vs.isEmpty
  | .dict es => !es.isEmpty

mutual
/-- Whether a value can be a key; lists and dictionaries cannot, nor can tuples that hold them. -/
def isKey : Value → Bool
  | .list _ | .dict _ => false
  | .tuple vs => areKeys vs
  | _ => true

def areKeys : List Value → Bool
  | [] => true
  | v :: vs => isKey v && areKeys vs
end

mutual
/-- Whether a whole number of more than so many digits is a part of a value. -/
def exceeds (longest : Nat) : Value → Bool
  | .int n => Nat.pow 10 longest ≤ n.natAbs
  | .list vs | .tuple vs => anyExceeds longest vs
  | .dict es => anyEntryExceeds longest es
  | _ => false

def anyExceeds (longest : Nat) : List Value → Bool
  | [] => false
  | v :: vs => exceeds longest v || anyExceeds longest vs

def anyEntryExceeds (longest : Nat) : List (Text × Value) → Bool
  | [] => false
  | (_, v) :: es => exceeds longest v || anyEntryExceeds longest es
end

/-- Enters a value under a key: a repeated key keeps its first place and takes the last value. -/
def put (key : Text) (value : Value) : List (Text × Value) → List (Text × Value)
  | [] => [(key, value)]
  | (k, v) :: rest => if k = key then (k, value) :: rest else (k, v) :: put key value rest

theorem keys_put (key : Text) (value : Value) (es : List (Text × Value)) :
    (put key value es).map Prod.fst =
      if key ∈ es.map Prod.fst then es.map Prod.fst else es.map Prod.fst ++ [key] := by
  induction es with
  | nil => simp [put]
  | cons e es ih =>
    by_cases h : e.1 = key
    · simp [put, h]
    · simp only [put, h, if_false, List.map_cons, ih, List.mem_cons, Ne.symm h, false_or]
      split <;> simp

theorem lookup_put (key other : Text) (value : Value) (es : List (Text × Value)) :
    (put key value es).lookup other = if other = key then some value else es.lookup other := by
  induction es with
  | nil =>
    by_cases h : other = key
    · simp [put, h]
    · simp [put, List.lookup_cons, beq_eq_false_iff_ne.mpr h, h]
  | cons e es ih =>
    obtain ⟨k, v⟩ := e
    by_cases h : k = key
    · by_cases ho : other = key
      · simp [put, h, ho]
      · simp [put, h, ho, List.lookup_cons, beq_eq_false_iff_ne.mpr ho]
    · by_cases ho : other = k
      · subst ho; simp [put, h]
      · simp [put, h, List.lookup_cons, beq_eq_false_iff_ne.mpr ho, ih]

/-- The dictionary of some entries, entered in order. -/
def dictOf (entries : List (Text × Value)) : List (Text × Value) :=
  entries.foldl (fun es e => put e.1 e.2 es) []

end Value
end Peg
