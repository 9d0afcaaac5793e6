import Peg.Ident
import Peg.Terminal

/-! Parsers as trees of terminals and combinators, with rules as leaves. -/
namespace Peg

/-- A parser.  The nodes that are only equal to themselves carry a name of their own, and so does
a sequence, which remembers the shape of its value. -/
inductive Parser
  | terminal (id : Ident) (terminal : Terminal)
  /-- Runs its parts one after another. -/
  | seq (id : Ident) (parts : List Parser)
  /-- The first branch that succeeds. -/
  | choice (branches : List Parser)
  /-- As many elements as there are, up to `most`, with the separator between each two. -/
  | rep (id : Ident) (element : Parser) (least : Quantity) (most : Option Quantity)
      (separator : Parser)
  /-- The body, or nothing. -/
  | opt (body : Parser)
  /-- Succeeds without consuming where the body fails. -/
  | not (body : Parser)
  /-- Forbids the branches that follow, once the body has succeeded. -/
  | cut (body : Parser)
  | map (id : Ident) (body : Parser) (f : Value → Except Fault Value) (name : Text)
  /-- Goes on with a parser chosen by the value. -/
  | flatMap (id : Ident) (body : Parser) (next : Value → Except Fault Parser) (name : Text)
  | filter (id : Ident) (body : Parser) (test : Value → Except Fault Bool) (name : Text)
  /-- Gives the text that the body consumed. -/
  | capture (body : Parser)
  /-- A reference to a rule, whose body is built when it is first used. -/
  | rule (id : RuleId) (name : Text)
  /-- Reports to a hook when the body is entered and left. -/
  | log (id : Ident) (body : Parser) (name : Text) (hook : Option HookId)

instance : Inhabited Parser := ⟨.terminal (.named "pass") .pass⟩

namespace Parser

/-- A sequence with one more part; a sequence on the left is extended rather than nested. -/
def andThen (id : Ident) (left right : Parser) : Parser :=
  match left with
  | seq _ parts => seq id (parts ++ [right])
  | p => seq id [p, right]

/-- A choice with one more branch; a choice on the left is extended rather than nested. -/
def orElse (left right : Parser) : Parser :=
  match left with
  | choice branches => choice (branches ++ [right])
  | p => choice [p, right]

/-- The parser for a word. -/
def word (id : Ident) (t : Text) : Parser := terminal id (.ofWord t)

/-- The parser for exactly one character. -/
def single (id : Ident) : Text → Except Fault Parser
  | [c] => .ok (terminal id (.char c))
  | t => .error (.notOneCharacter t)

/-- The parser for a run of at least so many characters of a set. -/
def runAtLeast (id : Ident) (chars : Text) (least : Int) : Except Fault Parser :=
  if least < 0 then .error (.negativeMinimum (.whole least))
  else .ok (terminal id (.runOf chars least.toNat))

/-- The parser that repeats an element between two bounds; without a separator it puts the
parser that always passes between the elements. -/
def between (id : Ident) (element : Parser) (least : Quantity) (most : Option Quantity)
    (separator : Option Parser) : Except Fault Parser :=
  if least.below 0 then .error (.negativeMinimum least)
  else if most.any (·.below least) then .error (.emptyRange (most.getD 0) least)
  else .ok (rep id element least most (separator.getD (terminal (.part 1 id) .pass)))

def isPass : Parser → Bool
  | terminal _ .pass => true
  | _ => false

def isChoice : Parser → Bool
  | choice _ => true
  | _ => false

def isSeqOrChoice : Parser → Bool
  | seq .. | choice _ => true
  | _ => false

/-- Whether a parser needs parentheses before a method: a sequence or a choice does, also below
one node that is not written. -/
def needsParens : Parser → Bool
  | seq .. | choice _ => true
  | map _ body _ _ | flatMap _ body _ _ | capture body | log _ body _ _ => body.isSeqOrChoice
  | _ => false

def parenthesised (needed : Bool) (t : Text) : Text := if needed then '(' :: t ++ [')'] else t

/-- The bounds and the separator of a repetition, without those that say nothing. -/
def writtenBounds (least : Quantity) (most : Option Quantity) (separator : Option Text) : Text :=
  Text.joinWith ", ".toList <|
    (if least.isZero then [] else ["min=".toList ++ least.written])
      ++ (most.map fun n => "max=".toList ++ n.written).toList
      ++ (separator.map fun t => "sep=".toList ++ t).toList

mutual
/-- How a parser is written in a grammar: `*` joins a sequence and `+` a choice, the rest are
methods.  A mapping, a capture and a log are not written. -/
def written : Parser → Text
  | terminal _ t => t.written
  | seq _ parts => Text.joinWith " * ".toList (writtenParts parts)
  | choice branches => Text.joinWith " + ".toList (writtenBranches branches)
  | rep _ element least most separator =>
    parenthesised element.needsParens (written element) ++ ".rep(".toList
      ++ writtenBounds least most (if separator.isPass then none else some (written separator))
      ++ [')']
  | opt body => parenthesised body.needsParens (written body) ++ ".opt()".toList
  | not body => '~' :: parenthesised body.needsParens (written body)
  | cut body => parenthesised body.needsParens (written body) ++ ".cut()".toList
  | map _ body _ _ => written body
  | flatMap _ body _ _ => written body
  | filter _ body _ name =>
    parenthesised body.needsParens (written body) ++ ".filter(".toList ++ name ++ [')']
  | capture body => written body
  | rule _ name => name
  | log _ body _ _ => written body

/-- The parts of a sequence; a choice among them stands in parentheses. -/
def writtenParts : List Parser → List Text
  | [] => []
  | p :: ps => parenthesised p.isChoice (written p) :: writtenParts ps

def writtenBranches : List Parser → List Text
  | [] => []
  | p :: ps => written p :: writtenBranches ps
end

/-- A parser that reports under a name, by default under its written form. -/
def logged (id : Ident) (body : Parser) (name : Text) (hook : Option HookId) : Parser :=
  log id body (if name.isEmpty then body.written else name) hook

end Parser
end Peg
