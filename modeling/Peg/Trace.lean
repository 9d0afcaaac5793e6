import Peg.Outcome
import Peg.Decimal.Fixed

/-! Tracing: what hooks are told while a parse runs, and what they make of it.
A hook is told of one call after another, and the record keeps the calls of all hooks.  What a hook
remembers is what it makes of that record: it answers a call by what it is told and by the calls
before it.  The hooks that come with the library print, send messages or open spans. -/
namespace Peg

/-- What is traced besides logged parsers, and how deep. -/
structure Config where
  rules : Bool := false
  maxDepth : Option Int := none

/-- Whether a node at this depth goes untraced. -/
def Config.hides (config : Option Config) (depth : Nat) : Bool :=
  match config with
  | some c => c.maxDepth.any (· < (depth : Int))
  | none => false

/-- What stays fixed while one text is parsed. -/
structure Context where
  text : Text
  hook : Option HookId := none
  config : Option Config := none

/-- Whether rules are traced as logged parsers are. -/
def Context.tracesRules (c : Context) : Option HookId :=
  match c.hook, c.config with
  | some hook, some config => if config.rules then some hook else none
  | _, _ => none

/-- The three occasions on which a hook is called. -/
inductive Occasion
  | enter
  | exit
  | error
deriving DecidableEq

def Occasion.word : Occasion → Text
  | enter => "enter".toList
  | exit => "exit".toList
  | error => "error".toList

/-- What a hook is told of a node: that it is entered at an index, that it was left with an outcome,
or that an error passed through it; and how many traced nodes are open, and how long the node
took. -/
inductive Happening
  | entered (context : Context) (index : Int) (now : Nat)
  | left (context : Context) (index : Int) (outcome : Outcome) (duration : Rat) (now : Nat)
  | failed (fault : Fault) (duration : Rat)

def Happening.occasion : Happening → Occasion
  | entered .. => .enter
  | left .. => .exit
  | failed .. => .error

/-- One call of a hook; the span is what the hook gave when the node was entered. -/
structure Call where
  hook : HookId
  span : Option Nat
  name : Text
  depth : Nat
  happening : Happening

/-- What the owner of a hook sees. -/
inductive Event
  | line (text : Text)
  | message (level : Int) (text : Text)
  | spanStarted (span : Nat) (name : Text) (parent : Option Nat)
  | spanAttribute (span : Nat) (key : Text) (value : Value)
  | spanFault (span : Nat) (fault : Fault)
  | spanStatus (span : Nat) (description : Text)
  | spanEnded (span : Nat)
  | noted (call : Call)

def Event.line? : Event → Option Text
  | line t => some t
  | _ => none

/-- A hook.  It looks at a call and at all calls before it, the newest first, those of other hooks
included. -/
structure Hook where
  /-- Whether the hook counts as true after some calls. -/
  truth : List Call → Bool := fun _ => true
  /-- What the owner of the hook sees of a call. -/
  shows : List Call → Call → List Event
  /-- The span that the hook gives to a node that is entered, or what it raises.  What else it gives
  is not looked at. -/
  answer : List Call → Call → Except Fault (Option Nat)

namespace Call

/-- The call as it stands in the record: with the span that the hook gave to a node that is
entered. -/
def answered (c : Call) (answer : Except Fault (Option Nat)) : Call :=
  match c.happening, answer with
  | .entered .., .ok span => { c with span := span }
  | _, _ => c

/-- An outcome in short: a success shows the end and the text consumed. -/
def describe (t : Text) (i : Int) : Outcome → Text
  | .success _ j _ =>
    "Success(:".toList ++ Text.ofInt j ++ ",'".toList ++ t.slice i j ++ "')".toList
  | .failure .. => "Failure".toList

def milliseconds (duration : Rat) : Text :=
  " (".toList ++ Decimal.fixed 2 duration ++ "ms)".toList

section Told

variable (longest : Option Nat)

/-- The line that is printed for a call. -/
def line (indent : Text) (timing : Bool) (c : Call) : Except Fault Text := do
  let tail ← match c.happening with
    | .entered _ i _ => .ok ('+' :: c.name ++ ':' :: Text.ofInt i)
    | .left context i o d _ =>
      .ok ('-' :: c.name ++ ':' :: Text.ofInt i ++ ' ' :: describe context.text i o
        ++ if timing then milliseconds d else [])
    | .failed f _ => do .ok ('-' :: c.name ++ " ERROR: ".toList ++ (← f.told longest))
  .ok (indent.times c.depth ++ tail)

/-- The message that is sent for a call, with its level. -/
def message (level : Int) (c : Call) : Except Fault (Int × Text) :=
  match c.happening with
  | .entered _ i _ =>
    .ok (level, "[ENTER] ".toList ++ c.name ++ ':' :: Text.ofInt i ++ " (depth=".toList
      ++ Text.ofNat c.depth ++ [')'])
  | .left context i o d _ =>
    .ok (level, "[EXIT] ".toList ++ c.name ++ ':' :: Text.ofInt i ++ " -> ".toList
      ++ describe context.text i o ++ milliseconds d)
  | .failed f d => do
    .ok (40, "[ERROR] ".toList ++ c.name ++ " -> ".toList ++ (← f.told longest) ++ milliseconds d)

end Told

end Call

/-- A hook that shows what can be made of each call by itself, and raises where nothing can. -/
def Hook.showing (told : Call → Except Fault (List Event)) : Hook where
  shows _ c :=
    match told c with
    | .ok events => events
    | .error _ => []
  answer _ c := (told c).map fun _ => none

/-- The spans of a hook: how many it started, and those that are open, the innermost first. -/
structure Spans where
  started : Nat := 0
  stack : List Nat := []

namespace Spans

variable (longest : Option Nat)

/-- The spans after a call of their hook.  A span is closed when its node is left, and when an error
is told that has a text. -/
def after (s : Spans) (c : Call) : Spans :=
  match c.span, c.happening with
  | some span, .entered .. => ⟨s.started + 1, span :: s.stack⟩
  | some _, .left .. => { s with stack := s.stack.tail }
  | some _, .failed f _ => if (f.told longest).isOk then { s with stack := s.stack.tail } else s
  | none, _ => s

/-- The spans of a hook after some calls, the newest first. -/
def ofCalls (hook : HookId) : List Call → Spans
  | [] => {}
  | c :: cs => if c.hook = hook then (ofCalls hook cs).after longest c else ofCalls hook cs

/-- What is seen of a span when its node is entered. -/
def opening (span : Nat) (parent : Option Nat) (name : Text) (i : Int) (depth : Nat) : List Event :=
  [.spanStarted span name parent,
    .spanAttribute span "kompeg.name".toList (.str name),
    .spanAttribute span "kompeg.index".toList (.int i),
    .spanAttribute span "kompeg.depth".toList (.int depth)]

/-- What is seen of a span when its node is left. -/
def leaving (span : Nat) (o : Outcome) (duration : Rat) : List Event :=
  [.spanAttribute span "kompeg.success".toList (.bool o.isSuccess),
    .spanAttribute span "kompeg.end_index".toList (.int o.index),
    .spanAttribute span "kompeg.duration_ms".toList (.float (Decimal.toFloat duration)),
    .spanEnded span]

/-- What is seen of a span when an error passes through its node.  The error itself is noted first;
an error without a text leaves the span open. -/
def failing (span : Nat) (f : Fault) (duration : Rat) : List Event :=
  [.spanAttribute span "kompeg.success".toList (.bool false),
    .spanAttribute span "kompeg.duration_ms".toList (.float (Decimal.toFloat duration)),
    .spanFault span f]
    ++ match f.told longest with
      | .ok text => [.spanStatus span text, .spanEnded span]
      | .error _ => []

/-- The span for a node that is entered, unless it lies too deep. -/
def given (s : Spans) (deepest : Option Int) (depth : Nat) : Option Nat :=
  if deepest.any (· < (depth : Int)) then none else some s.started

/-- The hook that opens a span for each traced node down to a depth. -/
def hook (deepest : Option Int) : Hook where
  shows before c :=
    let s := ofCalls longest c.hook before
    match c.happening, c.span with
    | .entered _ i _, _ =>
      match s.given deepest c.depth with
      | some span => opening span s.stack.head? c.name i c.depth
      | none => []
    | .left _ _ o d _, some span => leaving span o d
    | .failed f d, some span => failing longest span f d
    | _, none => []
  answer before c :=
    match c.happening, c.span with
    | .entered .., _ => .ok ((ofCalls longest c.hook before).given deepest c.depth)
    | .failed f _, some _ => (f.told longest).map fun _ => none
    | _, _ => .ok none

end Spans

/-- The hook that notes every call as it is, numbers the nodes that it is told of, and raises on one
occasion. -/
def Hook.recording (raises : Option Occasion) : Hook where
  shows before c := [.noted (c.answered (.ok (some (number before c))))]
  answer before c :=
    if raises = some c.happening.occasion then .error (.raisedByHook c.happening.occasion.word)
    else .ok (some (number before c))
where
  /-- How many nodes were entered before. -/
  number (before : List Call) (c : Call) : Nat :=
    before.countP fun b => b.hook = c.hook && b.happening.occasion = .enter

/-- Hooks that are known by their kind. -/
inductive HookKind
  /-- Prints one line a call, indented by depth. -/
  | lines (indent : Text) (timing : Bool)
  /-- Sends a message a call to a log that drops what lies below its threshold. -/
  | messages (level threshold : Int)
  /-- Opens a span for each traced node down to a depth. -/
  | spans (deepest : Option Int)
  /-- Notes every call as it is, and raises on one occasion. -/
  | recorder (raises : Option Occasion)

/-- The hook of a kind, where whole numbers of at most `longest` digits can be told. -/
def HookKind.hook (longest : Option Nat) : HookKind → Hook
  | lines indent timing => .showing fun c => do .ok [.line (← c.line longest indent timing)]
  | messages level threshold => .showing fun c => do
    let (level, text) ← c.message longest level
    .ok (if threshold = 0 ∨ threshold ≤ level then [.message level text] else [])
  | spans deepest => Spans.hook longest deepest
  | recorder raises => .recording raises

end Peg
