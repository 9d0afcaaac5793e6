import Peg.Value.Written
import Peg.Decimal.Binary

/-! Bounds of repetitions.  A bound is a number of any kind; what it allows depends on the whole
number of rounds that reaches it alone, and its kind shows when it is written.  Main statement: a
bound is reached by the counts that do not lie below it. -/
namespace Peg

inductive Quantity
  | whole (n : Int)
  | truth (b : Bool)
  | real (x : Float)

namespace Quantity

instance (n : Nat) : OfNat Quantity n := ⟨.whole n⟩

def ofValue? : Value → Option Quantity
  | .int n => some (.whole n)
  | .bool b => some (.truth b)
  | .float x => some (.real x)
  | _ => none

def toValue : Quantity → Value
  | whole n => .int n
  | truth b => .bool b
  | real x => .float x

@[simp] theorem ofValue?_toValue (q : Quantity) : ofValue? q.toValue = some q := by
  cases q <;> rfl

def written (q : Quantity) : Text := q.toValue.written

/-- Whether a bound is zero; a lower bound of zero says nothing. -/
def isZero (q : Quantity) : Bool := !q.toValue.truthy

/-- The rational number that a quantity is, if it is one. -/
def rational? : Quantity → Option Rat
  | whole n => some n
  | truth b => some (if b then 1 else 0)
  | real x => Decimal.rational? x

/-- What a quantity is besides a rational number: infinite, or no number. -/
def excess (q : Quantity) : Float :=
  match q with
  | real x => if (Decimal.rational? x).isSome then 0 else x
  | _ => 0

/-- Whether one quantity lies below another; what is no number lies nowhere. -/
def below (p q : Quantity) : Bool :=
  match p.rational?, q.rational? with
  | some a, some b => a < b
  | _, _ => p.excess < q.excess

/-- How many rounds reach a quantity: the least whole number that does not lie below it.  Beyond
the largest double no text has as many places. -/
def toNat : Quantity → Nat
  | whole n => n.toNat
  | truth b => b.toNat
  | real x =>
    match Decimal.rational? x with
    | some q => q.ceil.toNat
    | none => if 0 < x then Nat.pow 2 1024 else 0

@[simp] theorem toNat_whole (n : Int) : (whole n).toNat = n.toNat := rfl

@[simp] theorem toNat_truth (b : Bool) : (truth b).toNat = b.toNat := rfl

/-- A quantity that is a rational number is reached by the counts of rounds that do not lie below
it. -/
theorem toNat_le_iff {q : Quantity} {a : Rat} (h : q.rational? = some a) (n : Nat) :
    q.toNat ≤ n ↔ a ≤ ((n : Int) : Rat) := by
  cases q with
  | whole m =>
    obtain rfl : (m : Rat) = a := by simpa [rational?] using h
    rw [toNat_whole, Rat.intCast_le_intCast]
    omega
  | truth b =>
    have hb : ((b.toNat : Int) : Rat) = a := by cases b <;> simpa [rational?] using h
    rw [← hb, Rat.intCast_le_intCast, toNat_truth]
    omega
  | real x =>
    have hx : Decimal.rational? x = some a := h
    rw [← Rat.ceil_le_iff]
    simp only [toNat, hx]
    omega

end Quantity
end Peg
