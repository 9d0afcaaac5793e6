import Peg.Parser
import Peg.Value.Equality

/-! What a parse ends with, and how a failure is reported. -/
namespace Peg

/-- A parse succeeds with a value and the position after what it consumed, or fails at a position
because of a parser that did not match there.  With a cut, enclosing choices go on no further. -/
inductive Outcome
  | success (value : Value) (index : Int) (cut : Bool)
  | failure (index : Int) (cause : Parser) (cut : Bool)

namespace Outcome

def index : Outcome → Int
  | success _ i _ => i
  | failure i _ _ => i

def hasCut : Outcome → Bool
  | success _ _ c => c
  | failure _ _ c => c

def isSuccess : Outcome → Bool
  | success .. => true
  | failure .. => false

/-- The same outcome, with a cut when one was seen before it. -/
def afterCut (seen : Bool) : Outcome → Outcome
  | success v i c => success v i (seen || c)
  | failure i p c => failure i p (seen || c)

@[simp] theorem afterCut_false (o : Outcome) : o.afterCut false = o := by
  cases o <;> simp [afterCut]

@[simp] theorem index_afterCut (b : Bool) (o : Outcome) : (o.afterCut b).index = o.index := by
  cases o <;> rfl

@[simp] theorem hasCut_afterCut (b : Bool) (o : Outcome) :
    (o.afterCut b).hasCut = (b || o.hasCut) := by
  cases o <;> rfl

@[simp] theorem isSuccess_afterCut (b : Bool) (o : Outcome) :
    (o.afterCut b).isSuccess = o.isSuccess := by
  cases o <;> rfl

/-- Successes are equal when value and position are, failures when the position is; cuts and
causes do not count. -/
def equal : Outcome → Outcome → Bool
  | success v i _, success w j _ => v.equal w && i == j
  | failure i _ _, failure j _ _ => i == j
  | _, _ => false

end Outcome

namespace Failure

/-- The line of a position, counted from one. -/
def line (t : Text) (i : Int) : Nat := t.newlinesBefore i + 1

/-- The column of a position within its line, counted from one. -/
def column (t : Text) (i : Int) : Int := i - t.lineStart i + 1

/-- A caret under the column of a position. -/
def caret (t : Text) (i : Int) : Text := List.replicate (i - t.lineStart i).toNat ' ' ++ ['^']

/-- Whether a failure lies so far from its line that no caret can be put under it. -/
def isFar (t : Text) (i : Int) : Bool :=
  let width := i - t.lineStart i + 1
  width < Terminal.lowest || -Terminal.lowest ≤ width

/-- Where a failure lies; line and column are only told in a text with newlines. -/
def place (t : Text) (i : Int) : Text :=
  ':' :: Text.ofInt i ++
    if '\n' ∈ t then
      " (line ".toList ++ Text.ofNat (line t i) ++ ", column ".toList ++ Text.ofInt (column t i)
        ++ [')']
    else []

/-- A failure told in three lines: where it lies and what was expected, the line of text, and a
caret under the place. -/
def report (t : Text) (i : Int) (cause : Parser) : Text :=
  "Failure at ".toList ++ place t i ++ ", expected: ".toList ++ cause.written
    ++ '\n' :: t.lineAt i ++ '\n' :: caret t i

end Failure
end Peg
