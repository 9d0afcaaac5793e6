import Peg.Fault
import Peg.Pattern.Matcher

/-! Parsers that look at the text themselves.  Each either accepts a position and gives the one
after what it consumed, or refuses it, or asks for a character before the first one. -/
namespace Peg

inductive Terminal
  | start
  | finish
  | pass
  | fail
  | literal (word : Text)
  /-- A list, a tuple or a dictionary where a word is expected.  With one item it is taken for a
  character, which no character equals; any other tuple offers its texts one after another. -/
  | compound (v : Value)
  | char (c : Char)
  | oneOf (chars : Text)
  | satisfying (test : Char → Except Fault Bool) (name : Text)
  | runOf (chars : Text) (least : Nat)
  /-- What a matcher finds; it is written by the text that describes it. -/
  | regex (matcher : Matcher) (source : Text)

namespace Terminal

/-- The lowest position at which a text can be looked at. -/
def lowest : Int := -(Nat.pow 2 63 : Nat)

/-- What is wrong with a position before the first character. -/
def before (i : Int) : Fault := if i < lowest then .farBeforeText else .beforeText

/-- Consumes one character that passes a test. -/
def scanOne (t : Text) (i : Int) (test : Char → Except Fault Bool) : Except Fault (Option Int) :=
  match t.ahead i with
  | none => .error (before i)
  | some [] => .ok none
  | some (c :: _) =>
    match test c with
    | .ok true => .ok (some (i + 1))
    | .ok false => .ok none
    | .error f => .error f

/-- Consumes the longest run of characters of a set; a run that is too short is refused. -/
def scanRun (t : Text) (i : Int) (chars : Text) (least : Nat) : Except Fault (Option Int) :=
  match t.ahead i with
  | none => .error (before i)
  | some rest =>
    let length := (rest.takeWhile (chars.contains ·)).length
    if least ≤ length then .ok (some (i + length)) else .ok none

/-- Whether one of the words offered stands at a position; an offer that is no text is a mistake
once it is reached. -/
def offers (t : Text) (i : Int) : List Value → Except Fault Bool
  | [] => .ok false
  | .str word :: vs => if t.startsAt word i then .ok true else offers t i vs
  | _ :: _ => .error .mismatch

/-- What a compound in place of a word does: a tuple whose offer is taken up moves on by the number
of its items. -/
def scanCompound (t : Text) (i : Int) : Value → Except Fault (Option Int)
  | .list [_] | .tuple [_] | .dict [_] => scanOne t i fun _ => .ok false
  | .tuple vs => (offers t i vs).map fun b => if b then some (i + vs.length) else none
  | _ => .error .mismatch

/-- What a matcher finds; from a negative position it looks at the start. -/
def scanMatch (t : Text) (i : Int) (matcher : Matcher) : Except Fault (Option Int) :=
  if t.length < i then .ok none
  else if i < -t.length ∧ i < lowest then .error .positionTooFar
  else .ok ((matcher.find t i.toNat).map Int.ofNat)

/-- Where a terminal that starts at a position ends. -/
def scan (t : Text) (i : Int) : Terminal → Except Fault (Option Int)
  | start => .ok (if i = 0 then some i else none)
  | finish => .ok (if i = t.length then some i else none)
  | pass => .ok (some i)
  | fail => .ok none
  | literal word => .ok (if t.startsAt word i then some (i + word.length) else none)
  | compound v => scanCompound t i v
  | char c => scanOne t i fun d => .ok (d == c)
  | oneOf chars => scanOne t i fun d => .ok (chars.contains d)
  | satisfying test _ => scanOne t i test
  | runOf chars least => scanRun t i chars least
  | regex matcher _ => scanMatch t i matcher

/-- How a terminal is written in a grammar. -/
def written : Terminal → Text
  | start => "Start()".toList
  | finish => "End()".toList
  | pass => "Pass()".toList
  | fail => "Fail()".toList
  | literal word => "P(".toList ++ word.quoted ++ [')']
  | compound v => "P(".toList ++ v.written ++ [')']
  | char c => "P(".toList ++ Text.quoted [c] ++ [')']
  | oneOf chars => "CharIn(".toList ++ chars.quoted ++ [')']
  | satisfying _ name => "CharPred(".toList ++ name ++ [')']
  | runOf chars least =>
    "WhileCharIn(".toList ++ chars.quoted
      ++ (if least = 1 then [] else ", min=".toList ++ Text.ofNat least) ++ [')']
  | regex _ source => "Regex(".toList ++ source.quoted ++ [')']

/-- What a terminal matches, in words. -/
def described : Terminal → Text
  | start => "start of input".toList
  | finish => "end of input".toList
  | pass => "always pass".toList
  | fail => "always fail".toList
  | literal word => "literal ".toList ++ word.quoted
  | compound v => "literal ".toList ++ v.written
  | char c => "literal ".toList ++ Text.quoted [c]
  | oneOf chars => "one of ".toList ++ chars.quoted
  | satisfying _ name => "one char matching ".toList ++ name
  | runOf chars least =>
    "run of ".toList ++ chars.quoted ++ " (at least ".toList ++ Text.ofNat least ++ [')']
  | regex _ source => "regex ".toList ++ source.quoted

/-- The terminal for a word; a word of one character is matched as that character. -/
def ofWord : Text → Terminal
  | [c] => char c
  | word => literal word

/-- The terminal for a value where a word is expected; a value without items is none. -/
def ofValue : Value → Except Fault Terminal
  | .str t => .ok (ofWord t)
  | v => if v.size?.isSome then .ok (compound v) else .error .mismatch

end Terminal
end Peg
