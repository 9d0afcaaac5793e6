import Peg.Parsing
import Peg.Outline
import Peg.Samples.Arithmetic
import Peg.Samples.Json

/-! The sample grammars, and what they print when they are run.
A sample is a list of parts.  Each part runs in the world around it, with the hook and the
configuration in force there, and gives the lines that it prints itself. -/
namespace Peg.Samples

/-- What the suppliers of the sample grammars' rules give; whole numbers have at most `longest`
digits when there is a limit. -/
def supply (longest : Option Nat) : RuleId → Except Fault Parser
  | .named name =>
    match (Arithmetic.body? longest name).or (Json.body? name) with
    | some p => .ok p
    | none => .error .notReady
  | .numbered _ => .error .notReady

/-- The sample grammars in a world of their own, with hooks that print and a clock that stands
still. -/
def world (longest : Option Nat) : World where
  supply r _ := supply longest r
  hook _ := HookKind.hook longest (.lines "  ".toList false)
  clock _ := 0

/-- How deep parsers may nest. -/
def limit : Nat := 100000

/-- A part of a sample. -/
abbrev Part := World → Run (List Text)

/-- The part that prints a line. -/
def say (line : String) : Part := fun _ => pure [line.toList]

/-- Parses a text in a world, and prints what is made of the outcome. -/
def parsed (p : Parser) (t : Text) (lines : Outcome → List Text) : Part := fun w => do
  let o ← Parsing.parse w limit p t 0 none none
  pure (lines o)

/-- Runs parts one after another up to the first that raises.  Gives all that was printed: what the
standard hook printed during a part stands before the part's own lines. -/
def perform (w : World) : List Part → State → (Answer Unit × List Text) × State
  | [], s => ((.value (), []), s)
  | part :: parts, s =>
    let (answer, s) := part w s
    let (events, s) := s.takeOutput .standard
    let traced := events.filterMap Event.line?
    match answer with
    | .value lines =>
      let ((answer, rest), s) := perform w parts s
      ((answer, traced ++ lines ++ rest), s)
    | .raised fault => ((.raised fault, traced), s)
    | .exhausted => ((.exhausted, traced), s)

/-- A text filled with blanks up to a width. -/
def padded (width : Nat) (t : Text) : Text := t ++ List.replicate (width - t.length) ' '

/-- A text with four blanks before each line. -/
def indented (t : Text) : Text :=
  "    ".toList ++ t.flatMap fun c => if c = '\n' then '\n' :: "    ".toList else [c]

namespace Arithmetic

def examples : List Text :=
  ["1+1".toList, "2*(3+1)".toList, "((1+1*2)+(3*4*5))/3".toList, "2*(3+1".toList]

/-- A text with its result, or with the report of the failure. -/
def evaluated (t : Text) : Part := parsed expression t fun
  | .success v _ _ =>
    let shown := match v with
      | .str s => s
      | v => v.written
    ["  ".toList ++ padded 24 t ++ " -> ".toList ++ shown]
  | .failure i cause _ =>
    ["  ".toList ++ padded 24 t ++ " -> FAILED".toList, indented (Failure.report t i cause)]

/-- A trace of all rules down to the second level. -/
def traced (t : Text) : Part := fun w =>
  Parsing.useTracing .standard (some ⟨true, some 2⟩) (parsed expression t (fun _ => []) w)

def explained : Part := fun w => do
  let t ← Outline.explain w limit expression true
  pure [t]

/-- Some texts with their results, a trace, and the outline of the grammar. -/
def report : List Part :=
  [say "=== Evaluate ===\n"] ++ examples.map evaluated
    ++ [say "\n=== Trace rules ===\n", traced "(1+2)*3".toList,
      say "\n=== Grammar ===\n", explained]

end Arithmetic

namespace Json

def examples : List Text :=
  ["\x7b\"a\": \"b\", \"c\": 5\x7d".toList,
    "[1, 2.5e3, \"tab\\there\", true, null, \x7b\"nested\": []\x7d]".toList,
    "\x7b\"unterminated\": [1, 2\x7d".toList]

/-- A text with its value, or the report of the failure, and an empty line. -/
def evaluated (t : Text) : Part := parsed document t fun
  | .success v _ _ => [t ++ "\n  -> ".toList ++ v.written ++ ['\n']]
  | .failure i cause _ => [Failure.report t i cause ++ ['\n']]

/-- The given texts with their values, or some of its own when none is given. -/
def report (texts : List Text) : List Part :=
  (if texts.isEmpty then examples else texts).map evaluated

end Json

end Peg.Samples
