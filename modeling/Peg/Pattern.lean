import Peg.Text.Class
import Peg.Text.Case

/-! Patterns over characters, matched by trying alternatives in order and going back.
A match runs a pattern at a cursor and hands every place where it may end, best first, to what
has to match after it. -/
namespace Peg

/-- What a set of characters is made of. -/
inductive Member
  | range (low high : Char)
  | blank (inside : Bool)
  | digit (inside : Bool)
  | word (inside : Bool)

namespace Member

def holds (c : Char) : Member → Bool
  | range low high => low ≤ c && c ≤ high
  | blank inside => Text.isBlank c == inside
  | digit inside => Text.isDigit c == inside
  | word inside => Text.isWord c == inside

/-- Whether a member holds a character when case does not count: a range holds it also for a letter
that differs from it in case only, a class only for itself. -/
def holdsCaseless (c : Char) : Member → Bool
  | range low high => (Text.caseKin c).any fun d => low ≤ d && d ≤ high
  | m => m.holds c

end Member

structure CharSet where
  members : List Member
  /-- The set holds what its members do not. -/
  inverted : Bool
  /-- Case does not count. -/
  caseless : Bool

namespace CharSet

def holds (s : CharSet) (c : Char) : Bool :=
  (s.members.any fun m => if s.caseless then m.holdsCaseless c else m.holds c) != s.inverted

end CharSet

/-- A place in a text: the character before it, how many stand before it, and what follows. -/
structure Cursor where
  before : Option Char
  offset : Nat
  rest : Text

namespace Cursor

def ofText (t : Text) (offset : Nat) : Cursor :=
  ⟨(t.take offset).getLast?, offset, t.drop offset⟩

end Cursor

/-- A condition on a place that consumes nothing. -/
inductive Mark
  | textStart
  | textEnd
  | lineStart
  | lineEnd
  /-- The end of the text, or the place before a newline that ends it. -/
  | lastLineEnd
  /-- A word begins or ends here. -/
  | wordEdge
  /-- No word begins or ends here; an empty text has no such place. -/
  | wordInside

namespace Mark

def holds (c : Cursor) : Mark → Bool
  | textStart => c.before.isNone
  | textEnd => c.rest.isEmpty
  | lineStart => c.before.all (· == '\n')
  | lineEnd => c.rest.head?.all (· == '\n')
  | lastLineEnd => c.rest.isEmpty || c.rest == ['\n']
  | wordEdge => c.before.any Text.isWord != c.rest.head?.any Text.isWord
  | wordInside =>
    (c.before.isSome || !c.rest.isEmpty) && c.before.any Text.isWord == c.rest.head?.any Text.isWord

end Mark

inductive Pattern
  | one (set : CharSet)
  | mark (mark : Mark)
  | sequence (parts : List Pattern)
  | choice (branches : List Pattern)
  | loop (body : Pattern) (least : Nat) (most : Option Nat) (greedy : Bool)
  /-- Looks whether the body matches from here, and consumes nothing. -/
  | ahead (wanted : Bool) (body : Pattern)

namespace Pattern

/-- What has to match next. -/
abbrev Next := Cursor → Option Cursor

/-- Repeats a body.  Past the least count a round that ended where it began is not followed by
another one, so that the number of rounds is bounded by that count and the text that is left. -/
def repeatFrom (body : Cursor → Next → Option Cursor) (least : Nat) (most : Option Nat)
    (greedy : Bool) (next : Next) : Nat → Nat → Option Nat → Next
  | 0, _, _, _ => none
  | rounds + 1, count, last, c =>
    if count < least then
      body c (repeatFrom body least most greedy next rounds (count + 1) last)
    else
      let again (_ : Unit) : Option Cursor :=
        if most.all (count < ·) && last != some c.offset then
          body c (repeatFrom body least most greedy next rounds (count + 1) (some c.offset))
        else none
      if greedy then
        match again () with
        | some d => some d
        | none => next c
      else
        match next c with
        | some d => some d
        | none => again ()

mutual
def run : Pattern → Cursor → Next → Option Cursor
  | one set, c, next =>
    match c.rest with
    | [] => none
    | d :: rest => if set.holds d then next ⟨some d, c.offset + 1, rest⟩ else none
  | mark m, c, next => if m.holds c then next c else none
  | sequence ps, c, next => runAll ps c next
  | choice ps, c, next => runAny ps c next
  | loop body least most greedy, c, next =>
    repeatFrom (fun c next => run body c next) least most greedy next
      (least + c.rest.length + 2) 0 none c
  | ahead wanted body, c, next => if (run body c some).isSome == wanted then next c else none

def runAll : List Pattern → Cursor → Next → Option Cursor
  | [], c, next => next c
  | p :: ps, c, next => run p c fun d => runAll ps d next

def runAny : List Pattern → Cursor → Next → Option Cursor
  | [], _, _ => none
  | p :: ps, c, next =>
    match run p c next with
    | some d => some d
    | none => runAny ps c next
end

/-- Where the best match from an offset ends. -/
def matchEnd? (p : Pattern) (t : Text) (offset : Nat) : Option Nat :=
  (run p (Cursor.ofText t offset) some).map Cursor.offset

end Pattern
end Peg
