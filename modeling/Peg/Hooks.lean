import Peg.Rules

/-! Traced nodes.  A node that is traced calls its hook when it is entered and again when it is
left or when an error passes through it, one level deeper in between.  The clock is read right
after the first call and right before the second. -/
namespace Peg

namespace Tracing

/-- The record and the output after a hook got a call. -/
def tell (t : Tracing) (hook : Hook) (call : Call) : Tracing :=
  { t with
    calls := call.answered (hook.answer t.calls call) :: t.calls
    output := ((hook.shows t.calls call).map fun e => (call.hook, e)).reverse ++ t.output }

end Tracing

namespace State

def mapTracing (f : Tracing → Tracing) (s : State) : State := { s with tracing := f s.tracing }

@[simp] theorem memory_mapTracing (f : Tracing → Tracing) (s : State) :
    (s.mapTracing f).memory = s.memory := rfl

@[simp] theorem tracing_mapTracing (f : Tracing → Tracing) (s : State) :
    (s.mapTracing f).tracing = f s.tracing := rfl

/-- What the owner of a hook sees of its calls, in the order in which they were made; it is forgotten
then. -/
def takeOutput (hook : HookId) (s : State) : List Event × State :=
  let (mine, others) := s.tracing.output.partition (·.1 = hook)
  (mine.reverse.map Prod.snd, s.mapTracing ({ · with output := others }))

def setDepth (depth : Nat) (s : State) : State := s.mapTracing ({ · with depth := depth })

@[simp] theorem depth_setDepth (depth : Nat) (s : State) : (s.setDepth depth).tracing.depth = depth :=
  rfl

end State

namespace Hooks

/-- One reading of the clock. -/
def now (w : World) : Run Rat := fun s =>
  (.value (w.clock s.tracing.readings),
    s.mapTracing fun t => { t with readings := t.readings + 1 })

/-- Makes a call of its hook, which answers or raises. -/
def tell (w : World) (call : Call) : Run (Option Nat) := fun s =>
  let s' := s.mapTracing (·.tell (w.hook call.hook) call)
  match (w.hook call.hook).answer s.tracing.calls call with
  | .ok span => (.value span, s')
  | .error fault => (.raised fault, s')

/-- Tells a hook that a node is entered; gives the span that the hook answers with. -/
def enter (w : World) (c : Context) (hook : HookId) (name : Text) (index : Int) (depth : Nat) :
    Run (Option Nat) := do
  let now ← Run.get (·.tracing.depth)
  tell w ⟨hook, none, name, depth, .entered c index now⟩

/-- Tells a hook how a node ended. -/
def close (w : World) (hook : HookId) (name : Text) (depth : Nat) (span : Option Nat)
    (happening : Happening) : Run Unit := do
  let _ ← tell w ⟨hook, span, name, depth, happening⟩
  pure ()

/-- Time since a reading, in milliseconds. -/
def since (w : World) (start : Rat) : Run Rat := do
  let stop ← now w
  pure ((stop - start) * 1000)

/-- The hook that a log reports to: its own one or else that of the parse, if it counts as true, and
the standard one otherwise. -/
def chosen (w : World) (own given : Option HookId) (calls : List Call) : HookId :=
  let holds (hook : HookId) : Bool := (w.hook hook).truth calls
  ((own.filter holds).or (given.filter holds)).getD .standard

section Nodes

variable {α : Type} (outcome : α → Outcome)

/-- Runs a node that has been entered, and tells its hook how it ended; what the node gives has an
outcome.  The hook is told of errors only: what else is raised passes by, and the clock is not read
for it. -/
@[specialize] def watch (w : World) (c : Context) (hook : HookId) (name : Text) (index : Int)
    (depth : Nat) (span : Option Nat) (start : Rat) (node : Run α) : Run α := fun s =>
  match node (s.setDepth (depth + 1)) with
  | (.value a, s) =>
    (do
      let duration ← since w start
      let now ← Run.get (·.tracing.depth)
      close w hook name depth span (.left c index (outcome a) duration now)
      pure a : Run α) (s.setDepth depth)
  | (.raised fault, s) =>
    if fault.isError then
      Run.ensuring (do
        let duration ← since w start
        close w hook name depth span (.failed fault duration)
        Run.raise fault) (·.setDepth depth) s
    else (.raised fault, s.setDepth depth)
  | (.exhausted, s) => (.exhausted, s.setDepth depth)

/-- Runs a node with its hook told, unless it lies too deep to be traced. -/
@[specialize] def traced (w : World) (c : Context) (hook : HookId) (name : Text) (index : Int)
    (node : Run α) : Run α := do
  let depth ← Run.get (·.tracing.depth)
  if Config.hides c.config depth then node
  else
    let span ← enter w c hook name index depth
    let start ← now w
    watch outcome w c hook name index depth span start node

/-- Runs a node of a log, which may have a hook of its own. -/
@[specialize] def logged (w : World) (c : Context) (own : Option HookId) (name : Text) (index : Int)
    (node : Run α) : Run α := do
  let hook ← Run.get fun s => chosen w own c.hook s.tracing.calls
  traced outcome w c hook name index node

end Nodes

end Hooks
end Peg
