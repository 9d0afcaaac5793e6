import Peg.Pattern.Reading
import Peg.Catalogue

/-! Descriptions of parsers, built from words, operators and methods.
Building names every node after its place in the description, takes words for parsers where a
parser is expected, and refuses whatever is neither.  It never asks a rule for its body. -/
namespace Peg

inductive Expr
  /-- A word, where a parser is expected. -/
  | text (t : Text)
  /-- A value that is no parser. -/
  | plain (v : Value)
  /-- What stands under a name. -/
  | ref (key : Text)
  | given (p : Parser)
  | terminal (t : Terminal)
  | char (t : Text)
  | runOf (chars : Text) (least : Int)
  | regex (source : Text) (flags : Pattern.Flags)
  /-- Operands joined from the left into a sequence. -/
  | product (operands : List Expr)
  /-- Operands joined from the left into a choice. -/
  | sum (operands : List Expr)
  | seqOf (parts : List Expr)
  | choiceOf (branches : List Expr)
  /-- A negation, also of a word. -/
  | not (e : Expr)
  /-- A negation of what is not a word. -/
  | invert (e : Expr)
  | map (e : Expr) (f : Value → Except Fault Value) (name : Text)
  | flatMap (e : Expr) (given : List Expr) (next : Catalogue.Choice) (name : Text)
  | filter (e : Expr) (test : Value → Except Fault Bool) (name : Text)
  | capture (e : Expr)
  | opt (e : Expr)
  | cut (e : Expr)
  | rep (e : Expr) (least : Quantity) (most : Option Quantity) (separator : Option Expr)
  | log (e : Expr) (name : Text) (hook : Option Text)

/-- What an expression stands for before a parser is asked of it. -/
inductive Operand
  | parser (p : Parser)
  | text (t : Text)
  | plain (v : Value)

/-- Parsers are taken as they are and words become parsers. -/
def Operand.toParser (id : Ident) : Operand → Except Fault Parser
  | parser p => .ok p
  | text t => .ok (.word id t)
  | plain v => .error (.operand v)

/-- What separates the elements of a repetition: nothing where no value is given. -/
def Operand.separator (id : Ident) : Operand → Except Fault (Option Parser)
  | plain .none => .ok none
  | o => (o.toParser id).map some

/-- Methods apply to parsers only. -/
def Operand.receiver : Operand → Except Fault Parser
  | parser p => .ok p
  | _ => .error .notAParser

/-- The value of an operand that is no parser. -/
def Operand.value? : Operand → Option Value
  | parser _ => none
  | text t => some (.str t)
  | plain v => some v

def Operand.ofValue : Value → Operand
  | .str t => text t
  | v => plain v

/-- What an operator does: it joins parsers, and it combines values where neither side is a
parser. -/
structure Operator where
  join : Ident → Parser → Parser → Parser
  combine : Value → Value → Except Fault Value

namespace Operator

def times : Operator := ⟨Parser.andThen, Catalogue.times⟩

def plus : Operator := ⟨fun _ => Parser.orElse, Catalogue.add⟩

/-- An operator between what stands left of it and its `i`-th operand; beside a parser a word is
taken for one. -/
def apply (op : Operator) (id : Ident) (i : Nat) (left right : Operand) : Except Fault Operand :=
  match left.value?, right.value? with
  | some v, some w => (op.combine v w).map .ofValue
  | _, _ => do
    let p ← left.toParser (.part 0 id)
    let q ← right.toParser (.part i id)
    .ok (.parser (op.join id p q))

end Operator

/-- The negation of a parser, or a whole number taken from minus one. -/
def Operand.inverted : Operand → Except Fault Operand
  | parser p => .ok (.parser (.not p))
  | text _ => .error .mismatch
  | plain v =>
    match v.asInt? with
    | some n => .ok (.plain (.int (-1 - n)))
    | none => .error .mismatch

/-- What expressions refer to: parsers and hooks by name, and matchers by the text that describes
them. -/
structure Names where
  parser : Text → Option Parser
  hook : Text → Option HookId
  matcher : Pattern.Flags → Text → Option Matcher

namespace Expr

/-- All operands as parsers. -/
def toParsers (id : Ident) : Nat → List Operand → Except Fault (List Parser)
  | _, [] => .ok []
  | i, o :: os => do
    let p ← o.toParser (.part i id)
    let ps ← toParsers id (i + 1) os
    .ok (p :: ps)

mutual
def build (names : Names) (id : Ident) : Expr → Except Fault Operand
  | text t => .ok (.text t)
  | plain v => .ok (.plain v)
  | ref key =>
    match names.parser key with
    | some p => .ok (.parser p)
    | none => .error (.unknownKey (.str key))
  | given p => .ok (.parser p)
  | terminal t => .ok (.parser (.terminal id t))
  | char t => (Parser.single id t).map .parser
  | runOf chars least => (Parser.runAtLeast id chars least).map .parser
  | regex source flags =>
    match names.matcher flags source with
    | some m => .ok (.parser (.terminal id (.regex m source)))
    | none => .error .malformedPattern
  | product [] | sum [] => .error .mismatch
  | product (e :: es) => do buildOnto names id .times (← build names (.part 0 id) e) 1 es
  | sum (e :: es) => do buildOnto names id .plus (← build names (.part 0 id) e) 1 es
  | seqOf es => do .ok (.parser (.seq id (← toParsers id 0 (← buildAll names id 0 es))))
  | choiceOf es => do .ok (.parser (.choice (← toParsers id 0 (← buildAll names id 0 es))))
  | not e => do
    let o ← build names (.part 0 id) e
    .ok (.parser (.not (← o.toParser (.part 0 id))))
  | invert e => do
    let o ← build names (.part 0 id) e
    o.inverted
  | map e f name => do
    let o ← build names (.part 0 id) e
    .ok (.parser (.map id (← o.receiver) f name))
  | flatMap e es next name => do
    let o ← build names (.part 0 id) e
    let p ← o.receiver
    let ps ← toParsers id 1 (← buildAll names id 1 es)
    .ok (.parser (.flatMap id p (next (.part (es.length + 1) id) ps) name))
  | filter e test name => do
    let o ← build names (.part 0 id) e
    .ok (.parser (.filter id (← o.receiver) test name))
  | capture e => do
    let o ← build names (.part 0 id) e
    .ok (.parser (.capture (← o.receiver)))
  | opt e => do
    let o ← build names (.part 0 id) e
    .ok (.parser (.opt (← o.receiver)))
  | cut e => do
    let o ← build names (.part 0 id) e
    .ok (.parser (.cut (← o.receiver)))
  | rep e least most separator => do
    let o ← build names (.part 0 id) e
    let p ← o.receiver
    let gap ← match separator with
      | none => .ok none
      | some s => do
        let o ← build names (.part 1 id) s
        o.separator (.part 1 id)
    (Parser.between id p least most gap).map .parser
  | log e name hook => do
    let o ← build names (.part 0 id) e
    let p ← o.receiver
    match hook with
    | none => .ok (.parser (.logged id p name none))
    | some key =>
      match names.hook key with
      | some h => .ok (.parser (.logged id p name (some h)))
      | none => .error (.unknownKey (.str key))

/-- Builds operands one after another, and joins each to what stands left of it before the next is
built. -/
def buildOnto (names : Names) (id : Ident) (op : Operator) (left : Operand) (i : Nat) :
    List Expr → Except Fault Operand
  | [] => .ok left
  | e :: es => do
    let right ← build names (.part i id) e
    buildOnto names id op (← op.apply id i left right) (i + 1) es

def buildAll (names : Names) (id : Ident) (i : Nat) : List Expr → Except Fault (List Operand)
  | [] => .ok []
  | e :: es => do
    let o ← build names (.part i id) e
    let os ← buildAll names id (i + 1) es
    .ok (o :: os)
end

/-- The parser that an expression describes. -/
def toParser (names : Names) (id : Ident) (e : Expr) : Except Fault Parser := do
  (← e.build names id).receiver

end Expr
end Peg
