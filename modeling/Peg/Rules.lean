import Peg.Run

/-! Rules: bodies that are built when they are first needed and kept, and the question whether a
parser is a unit parser, one whose value says nothing.
A rule met while its own question is being answered counts as a unit parser.  An answer that
relied on such a guess about an enclosing rule is given but not kept. -/
namespace Peg

/-- What parsing finds around it: the suppliers of rule bodies, the hooks, and the time in seconds at
each reading of the clock. -/
structure World where
  /-- The body that the supplier of a rule gives when it is called for the `n`-th time. -/
  supply : RuleId → Nat → Except Fault Parser
  hook : HookId → Hook
  clock : Nat → Rat

namespace Memory

def setCell (m : Memory) (r : RuleId) (c : RuleCell) : Memory :=
  { m with cell := fun s => if s = r then c else m.cell s }

@[simp] theorem cell_setCell (m : Memory) (r s : RuleId) (c : RuleCell) :
    (m.setCell r c).cell s = if s = r then c else m.cell s := rfl

@[simp] theorem shape_setCell (m : Memory) (r : RuleId) (c : RuleCell) :
    (m.setCell r c).shape = m.shape := rfl

@[simp] theorem resolving_setCell (m : Memory) (r : RuleId) (c : RuleCell) :
    (m.setCell r c).resolving = m.resolving := rfl

def setShape (m : Memory) (id : Ident) (units : List Bool) : Memory :=
  { m with shape := fun j => if j = id then some units else m.shape j }

@[simp] theorem shape_setShape (m : Memory) (id j : Ident) (units : List Bool) :
    (m.setShape id units).shape j = if j = id then some units else m.shape j := rfl

@[simp] theorem cell_setShape (m : Memory) (id : Ident) (units : List Bool) :
    (m.setShape id units).cell = m.cell := rfl

/-- The place of a rule among those being answered, counted from the outermost. -/
def placeOf (r : RuleId) : List Frame → Option Nat
  | [] => none
  | f :: fs => if f.rule = r then some fs.length else placeOf r fs

/-- Notes that the innermost answer relies on a place. -/
def relyOn (low : Nat) : List Frame → List Frame
  | [] => []
  | f :: fs => { f with low := min f.low low } :: fs

@[simp] theorem length_relyOn (low : Nat) (fs : List Frame) : (relyOn low fs).length = fs.length := by
  cases fs <;> rfl

/-- Begins to answer for a rule. -/
def enter (m : Memory) (r : RuleId) : Memory :=
  { m with resolving := ⟨r, m.resolving.length⟩ :: m.resolving }

/-- Gives up on the innermost rule. -/
def leave (m : Memory) : Memory := { m with resolving := m.resolving.tail }

/-- Ends the innermost answer: it is kept unless it relied on an enclosing rule, which then relies
on the same place. -/
def settle (m : Memory) (r : RuleId) (unit : Bool) : Memory :=
  match m.resolving with
  | [] => m
  | f :: fs =>
    if f.low < fs.length then { m with resolving := relyOn f.low fs }
    else { m.setCell r { m.cell r with unit := some unit } with resolving := fs }

end Memory

namespace State

def mapMemory (f : Memory → Memory) (s : State) : State := { s with memory := f s.memory }

@[simp] theorem memory_mapMemory (f : Memory → Memory) (s : State) :
    (s.mapMemory f).memory = f s.memory := rfl

@[simp] theorem tracing_mapMemory (f : Memory → Memory) (s : State) :
    (s.mapMemory f).tracing = s.tracing := rfl

end State

namespace Rules

/-- The body of a rule; its supplier is called only as long as it has not given one. -/
def body (w : World) (r : RuleId) : Run Parser := fun s =>
  let c := s.memory.cell r
  match c.body with
  | some p => (.value p, s)
  | none =>
    match w.supply r c.calls with
    | .ok p => (.value p, s.mapMemory (·.setCell r { c with calls := c.calls + 1, body := some p }))
    | .error fault => (.raised fault, s.mapMemory (·.setCell r { c with calls := c.calls + 1 }))

/-- The answers for all parts, one after another. -/
def eachUnit (unit : Parser → Run Bool) : List Parser → Run (List Bool)
  | [] => pure []
  | p :: ps => do
    let u ← unit p
    let us ← eachUnit unit ps
    pure (u :: us)

/-- Whether all branches are unit parsers; no branch is asked after one that is not. -/
def allUnit (unit : Parser → Run Bool) : List Parser → Run Bool
  | [] => pure true
  | p :: ps => do
    if ← unit p then allUnit unit ps else pure false

/-- Which parts of a sequence are unit parsers.  The answer is kept unless some rule's question is
still open, because it may then rest on a guess. -/
def shape (unit : Parser → Run Bool) (id : Ident) (parts : List Parser) : Run (List Bool) := do
  match ← Run.get (·.memory.shape id) with
  | some units => pure units
  | none =>
    let units ← eachUnit unit parts
    if (← Run.get (·.memory.resolving)).isEmpty then Run.modify (·.mapMemory (·.setShape id units))
    pure units

/-- Whether a rule is a unit parser, by its body. -/
def resolve (w : World) (unit : Parser → Run Bool) (r : RuleId) : Run Bool := fun s =>
  match (s.memory.cell r).unit with
  | some u => (.value u, s)
  | none =>
    match Memory.placeOf r s.memory.resolving with
    | some low =>
      (.value true,
        s.mapMemory fun m => { m with resolving := Memory.relyOn low m.resolving })
    | none =>
      match (body w r >>= unit) (s.mapMemory (·.enter r)) with
      | (.value u, s) => (.value u, s.mapMemory (·.settle r u))
      | (.raised fault, s) => (.raised fault, s.mapMemory Memory.leave)
      | (.exhausted, s) => (.exhausted, s.mapMemory Memory.leave)

/-- Whether a parser is a unit parser: its value is nothing whatever the text, so that sequences
leave it out.  The first argument bounds the nesting. -/
def isUnit (w : World) : Nat → Parser → Run Bool
  | 0, _ => Run.exhaust
  | n + 1, p =>
    match p with
    | .terminal .. | .not _ => pure true
    | .map .. | .flatMap .. | .capture _ => pure false
    | .seq id parts => do
      let units ← shape (isUnit w n) id parts
      pure (units.all fun u => u)
    | .choice branches => allUnit (isUnit w n) branches
    | .rep _ body .. | .opt body | .cut body | .filter _ body .. | .log _ body .. =>
      isUnit w n body
    | .rule r _ => resolve w (isUnit w n) r

end Rules
end Peg
