import Peg.Rules

/-! Outlines of grammars: one line for each node, indented by depth, with rules by name; on demand
followed by the body of every rule that can be reached, each once. -/
namespace Peg

namespace Parser

/-- What stands between the parentheses of a repetition. -/
def boundsDescribed (least : Quantity) (most : Option Quantity) (separator : Parser) : Text :=
  (match most with
    | some n => least.written ++ " to ".toList ++ n.written ++ " times".toList
    | none =>
      if least.isZero then "any number of times".toList
      else "at least ".toList ++ least.written ++ " times".toList)
    ++ if separator.isPass then [] else ", separated by ".toList ++ separator.written

/-- The line for a node without its indentation; a sequence or a choice at the top is announced
as what has to match. -/
def heading (depth : Nat) : Parser → Text
  | seq .. => (if depth = 0 then "Match ALL in sequence:" else "ALL in sequence:").toList
  | choice _ => (if depth = 0 then "Match FIRST of:" else "FIRST of:").toList
  | rep _ _ least most separator =>
    "REPEAT (".toList ++ boundsDescribed least most separator ++ "):".toList
  | opt _ => "OPTIONAL:".toList
  | not body => "NOT: ".toList ++ body.written
  | cut _ => "COMMIT after:".toList
  | map _ _ _ name => "MAP with ".toList ++ name ++ [':']
  | flatMap _ _ _ name => "THEN parser chosen by ".toList ++ name ++ [':']
  | filter _ _ _ name => "FILTER by ".toList ++ name ++ [':']
  | capture _ => "CAPTURE text of:".toList
  | log _ _ name _ => "LOG as ".toList ++ name.quoted ++ [':']
  | rule _ name => "rule ".toList ++ name
  | terminal _ t => t.described

/-- The nodes outlined below a node: none below a negation, which is written out on its line, and
none below a rule. -/
def outlined : Parser → List Parser
  | seq _ parts => parts
  | choice branches => branches
  | rep _ body .. | opt body | cut body | map _ body .. | flatMap _ body .. | filter _ body ..
  | capture body | log _ body .. => [body]
  | terminal .. | not _ | rule .. => []

/-- The nodes right below a node, an element before its separator. -/
def children : Parser → List Parser
  | seq _ parts => parts
  | choice branches => branches
  | rep _ body _ _ separator => [body, separator]
  | opt body | not body | cut body | map _ body .. | flatMap _ body .. | filter _ body ..
  | capture body | log _ body .. => [body]
  | terminal .. | rule .. => []

mutual
/-- How many nodes a tree has, with rules as leaves. -/
def size : Parser → Nat
  | seq _ parts => sizes parts + 1
  | choice branches => sizes branches + 1
  | rep _ body _ _ separator => size body + size separator + 1
  | opt body | not body | cut body | map _ body .. | flatMap _ body .. | filter _ body ..
  | capture body | log _ body .. => size body + 1
  | terminal .. | rule .. => 1

def sizes : List Parser → Nat
  | [] => 0
  | p :: ps => size p + sizes ps
end

theorem sizes_append (ps qs : List Parser) : sizes (ps ++ qs) = sizes ps + sizes qs := by
  induction ps with
  | nil => simp [sizes]
  | cons p ps ih => simp [sizes, ih, Nat.add_assoc]

theorem sizes_children_lt (p : Parser) : sizes p.children < p.size := by
  cases p <;> simp [children, sizes, size]

theorem sizes_outlined_lt (p : Parser) : sizes p.outlined < p.size := by
  cases p <;> simp only [outlined, sizes, size] <;> omega

end Parser

namespace Outline

/-- A node's line: two blanks a level, and a bullet below the top. -/
def line (p : Parser) (depth : Nat) : Text :=
  List.replicate (2 * depth) ' ' ++ (if depth = 0 then [] else "• ".toList) ++ p.heading depth

/-- The nodes waiting to be outlined, and how deep each stands. -/
abbrev Waiting := List (Parser × Nat)

def Waiting.size (ws : Waiting) : Nat := Parser.sizes (ws.map Prod.fst)

/-- Takes nodes from the front and puts what stands below them in their place. -/
def linesOf : Waiting → List Text
  | [] => []
  | (p, depth) :: ws => line p depth :: linesOf (p.outlined.map (·, depth + 1) ++ ws)
termination_by ws => Waiting.size ws
decreasing_by
  have := p.sizes_outlined_lt
  simp only [Waiting.size, List.map_append, List.map_map, List.map_cons, Parser.sizes_append,
    Parser.sizes, Function.comp_def, List.map_id']
  omega

/-- The outline of a parser that stands at some depth. -/
def lines (p : Parser) (depth : Nat) : List Text := linesOf [(p, depth)]

/-- A rule as it is referred to: which one, and under what name. -/
abbrev Reference := RuleId × Text

/-- The rules met when nodes are taken from the front and replaced by their children. -/
def rulesOf : List Parser → List Reference
  | [] => []
  | .rule r name :: ps => (r, name) :: rulesOf ps
  | p :: ps => rulesOf (p.children ++ ps)
termination_by ps => Parser.sizes ps
decreasing_by
  · simp [Parser.sizes, Parser.size]
  · have := p.sizes_children_lt
    simp only [Parser.sizes_append, Parser.sizes]
    omega

/-- The rules that a parser refers to, without looking into their bodies. -/
def rulesIn (p : Parser) : List Reference := rulesOf [p]

/-- Sections for the rules that wait, first come first served; a rule that was seen before gets
none.  The number bounds how many are looked at. -/
def sections (w : World) : Nat → List RuleId → List Reference → Run (List Text)
  | _, _, [] => pure []
  | 0, _, _ :: _ => Run.exhaust
  | n + 1, seen, (r, name) :: waiting =>
    if r ∈ seen then sections w n seen waiting
    else do
      let body ← Rules.body w r
      let rest ← sections w n (r :: seen) (waiting ++ rulesIn body)
      pure ([] :: (name ++ " :=".toList) :: lines body 1 ++ rest)

/-- The outline of a parser as one text, with or without the bodies of rules. -/
def explain (w : World) (limit : Nat) (p : Parser) (expand : Bool) : Run Text := do
  let more ← if expand then sections w limit [] (rulesIn p) else pure []
  pure (Text.joinWith ['\n'] (lines p 0 ++ more))

end Outline
end Peg
