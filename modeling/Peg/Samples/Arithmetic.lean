import Peg.Catalogue

/-! A grammar for sums and products of whole numbers that works out the result while it parses.
Products bind tighter than sums, both group from the left, and a quotient is rounded down.  How
many digits a number may have is a parameter of the grammar. -/
namespace Peg.Samples.Arithmetic

/-- One operation on the total so far. -/
def apply (total : Int) : Value → Except Fault Int
  | .tuple [.str op, .int n] =>
    if op = ['+'] then .ok (total + n)
    else if op = ['-'] then .ok (total - n)
    else if op = ['*'] then .ok (total * n)
    else if n = 0 then .error .quotientByZero
    else .ok (Int.fdiv total n)
  | _ => .error .mismatch

/-- Operations from the left, begun with the first number. -/
def evaluate : List Value → Except Fault Value
  | [.int first, .list rest] => (rest.foldlM apply first).map .int
  | _ => .error .mismatch

def sign : Parser := .terminal (.named "arithmetic.sign") (.oneOf "+-".toList)

def digits : Parser := .terminal (.named "arithmetic.digits") (.runOf "0123456789".toList 1)

def number (longest : Option Nat) : Parser :=
  .map (.named "arithmetic.number")
    (.capture (.seq (.named "arithmetic.number text") [.opt sign, digits]))
    (Catalogue.toInteger longest) "int".toList

/-- An expression in parentheses. -/
def parens : Parser := .rule (.named "arithmetic.parens") "parens".toList

/-- Factors with `*` and `/` between them. -/
def products : Parser := .rule (.named "arithmetic.products") "div_mul".toList

/-- Products with `+` and `-` between them. -/
def sums : Parser := .rule (.named "arithmetic.sums") "add_sub".toList

def factor (longest : Option Nat) : Parser := .choice [number longest, parens]

def parensBody : Parser :=
  .seq (.named "arithmetic.parens body")
    [.terminal (.named "arithmetic.open") (.char '('), sums,
      .terminal (.named "arithmetic.close") (.char ')')]

def pass : Parser := .terminal (.named "arithmetic.pass") .pass

def productsBody (longest : Option Nat) : Parser :=
  .map (.named "arithmetic.products value")
    (.seq (.named "arithmetic.products body")
      [factor longest,
        .rep (.named "arithmetic.more factors")
          (.seq (.named "arithmetic.next factor")
            [.capture (.terminal (.named "arithmetic.product sign") (.oneOf "*/".toList)),
              factor longest])
          0 none pass])
    (Catalogue.spread evaluate) "evaluate".toList

def sumsBody : Parser :=
  .map (.named "arithmetic.sums value")
    (.seq (.named "arithmetic.sums body")
      [products,
        .rep (.named "arithmetic.more products")
          (.seq (.named "arithmetic.next product")
            [.capture (.terminal (.named "arithmetic.sum sign") (.oneOf "+-".toList)), products])
          0 none pass])
    (Catalogue.spread evaluate) "evaluate".toList

/-- A sum up to the end of the text. -/
def expression : Parser :=
  .seq (.named "arithmetic.expression") [sums, .terminal (.named "arithmetic.end") .finish]

/-- The bodies of the grammar's rules. -/
def body? (longest : Option Nat) (rule : String) : Option Parser :=
  if rule = "arithmetic.parens" then some parensBody
  else if rule = "arithmetic.products" then some (productsBody longest)
  else if rule = "arithmetic.sums" then some sumsBody
  else none

end Peg.Samples.Arithmetic
