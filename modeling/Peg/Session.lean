import Peg.Samples
import Peg.Expr
import Peg.Parser.Equality

/-! Sessions: parsers, rules and hooks under names, and commands that build, run, compare and
describe them.  What a command has changed before it raises stays changed. -/
namespace Peg

/-- A rule under a key.  Its supplier refuses its first calls, and then builds the expression
with the names of the session at that time. -/
structure RuleEntry where
  key : Text
  name : Text
  body : Expr
  refusals : Nat

structure Session where
  parsers : List (Text × Parser) := []
  rules : Array RuleEntry := #[]
  hookNames : List (Text × HookId) := []
  hooks : Array HookKind := #[]
  /-- How many expressions were built so far. -/
  statements : Nat := 0
  state : State := {}
  /-- What the command being performed has printed by itself. -/
  printed : List Text := []

/-- How a text is to be parsed. -/
structure Options where
  index : Int := 0
  hook : Option Text := none
  config : Option Config := none

inductive Sample
  | arithmetic
  | json (texts : List Text)

inductive Command
  | define (key : Text) (e : Expr)
  | rule (entry : RuleEntry)
  | builds
  | hook (key : Text) (kind : HookKind)
  /-- Asks for a hook that opens spans where there is nothing to open them with. -/
  | missingSpans
  | events (hook : Text)
  | parse (e : Expr) (t : Text) (options : Options)
  /-- Parses a text that is to succeed. -/
  | expect (e : Expr) (t : Text) (options : Options)
  | unit (e : Expr)
  | write (e : Expr)
  | explain (e : Expr) (expand : Bool)
  | parts (e : Expr)
  | equal (e f : Expr)
  | sameResult (e : Expr) (s : Text) (i : Options) (f : Expr) (t : Text) (j : Options)
  | tracing (hook : Text) (config : Option Config) (commands : List Command)
  | sample (sample : Sample)

/-- What a command answers. -/
inductive Reply
  | built (p : Parser)
  | named (name : Text)
  | builds (counts : List (Text × Nat))
  | hooked (kind : HookKind)
  | events (events : List Event)
  | outcome (t : Text) (o : Outcome)
  | unit (b : Bool)
  | written (t : Text)
  | explained (t : Text)
  | parts (ps : List Parser)
  | equal (b : Bool)
  | replies (rs : List (Answer Reply × List Text))
  | ran

namespace Session

/-- How deep parsers may nest, and how many references to rules an outline may meet. -/
def limit : Nat := 100000

def names (s : Session) : Names where
  parser key := s.parsers.lookup key
  hook key := s.hookNames.lookup key
  matcher flags source := (Pattern.ofText? flags source).map Pattern.matcher

/-- The session as parsing finds it; its clock advances by an eighth of a second a reading. -/
def world (s : Session) : World where
  supply r n :=
    match r with
    | .named _ => Samples.supply (some Catalogue.longest) r
    | .numbered k =>
      match s.rules[k]? with
      | some entry =>
        if n < entry.refusals then .error .notReady else entry.body.toParser s.names (.body r)
      | none => .error .notReady
  hook id :=
    let kind : HookKind := match id with
      | .standard => .lines "  ".toList false
      | .numbered k => s.hooks[k]?.getD (.lines "  ".toList false)
    kind.hook (some Catalogue.longest)
  clock n := n / 8

/-- Builds an expression as a statement of its own. -/
def build (s : Session) (e : Expr) : Except Fault Parser × Session :=
  (e.toParser s.names (.statement s.statements), { s with statements := s.statements + 1 })

/-- Builds an expression and goes on with the parser. -/
def withParser {α : Type} (s : Session) (e : Expr) (f : Parser → Session → Answer α × Session) :
    Answer α × Session :=
  match s.build e with
  | (.ok p, s) => f p s
  | (.error fault, s) => (.raised fault, s)

def execute {α : Type} (s : Session) (x : Run α) : Answer α × Session :=
  let (a, state) := x s.state
  (a, { s with state := state })

/-- Goes on with the value of an answer. -/
def andThen {α β : Type} (r : Answer α × Session) (f : α → Session → Answer β × Session) :
    Answer β × Session :=
  match r with
  | (.value a, s) => f a s
  | (.raised fault, s) => (.raised fault, s)
  | (.exhausted, s) => (.exhausted, s)

/-- The hook under a key, if there is one to look up. -/
def hookNamed (s : Session) : Option Text → Except Fault (Option HookId)
  | none => .ok none
  | some key =>
    match s.names.hook key with
    | some h => .ok (some h)
    | none => .error (.unknownKey (.str key))

def parseWith (s : Session) (e : Expr) (t : Text) (options : Options) : Answer Outcome × Session :=
  s.withParser e fun p s =>
    match s.hookNamed options.hook with
    | .ok hook => s.execute (Parsing.parse s.world limit p t options.index hook options.config)
    | .error fault => (.raised fault, s)

/-- What one hook has to show, in the order in which its calls were made; it is forgotten then. -/
def takeOutput (s : Session) (hook : HookId) : List Event × Session :=
  let (events, state) := s.state.takeOutput hook
  (events, { s with state := state })

/-- What a command and the standard hook have printed. -/
def takePrinted (s : Session) : List Text × Session :=
  let (events, s) := s.takeOutput .standard
  (s.printed ++ events.filterMap Event.line?, { s with printed := [] })

/-- Runs the parts of a sample. -/
def runSample (s : Session) (parts : List Samples.Part) : Answer Unit × Session :=
  let ((answer, lines), state) := Samples.perform s.world parts s.state
  (answer, { s with state := state, printed := s.printed ++ lines })

/-- Answers with an outcome, unless it has a whole number too long to be told or is a failure too
far from its line. -/
def told (t : Text) (o : Outcome) : Answer Reply :=
  match o with
  | .success v _ _ =>
    if v.exceeds Catalogue.longest then .raised (.tooLongToTell Catalogue.longest)
    else .value (.outcome t o)
  | .failure i _ _ =>
    if Failure.isFar t i then .raised .positionTooFar else .value (.outcome t o)

/-- Answers with the outcome of a parse that is to succeed. -/
def expected (t : Text) (o : Outcome) : Answer Reply :=
  match told t o, o with
  | .value _, .failure i cause _ =>
    .raised (.parseFailed ("Parse error: ".toList ++ Failure.report t i cause))
  | answer, _ => answer

/-- How often the supplier of each rule was called; a key that was used again stands in its first
place with its last rule. -/
def buildCounts (s : Session) : List (Text × Nat) :=
  let enter (counts : List (Text × Nat)) (entry : Nat × RuleEntry) : List (Text × Nat) :=
    let calls := (s.state.memory.cell (.numbered entry.1)).calls
    if counts.any (·.1 = entry.2.key) then
      counts.map fun c => if c.1 = entry.2.key then (c.1, calls) else c
    else counts ++ [(entry.2.key, calls)]
  ((List.range s.rules.size).zip s.rules.toList).foldl enter []

def partsOfSample : Sample → List Samples.Part
  | .arithmetic => Samples.Arithmetic.report
  | .json texts => Samples.Json.report texts

/-- The parts of a sequence or the branches of a choice. -/
def partsOf : Parser → List Parser
  | .seq _ ps => ps
  | .choice ps => ps
  | _ => []

mutual
/-- What a command answers, and the session after it. -/
def perform (s : Session) : Command → Answer Reply × Session
  | .define key e => s.withParser e fun p s =>
    (.value (.built p), { s with parsers := (key, p) :: s.parsers })
  | .rule entry =>
    let p := Parser.rule (.numbered s.rules.size) entry.name
    (.value (.named entry.name),
      { s with rules := s.rules.push entry, parsers := (entry.key, p) :: s.parsers })
  | .builds => (.value (.builds s.buildCounts), s)
  | .hook key kind =>
    (.value (.hooked kind),
      { s with
        hooks := s.hooks.push kind
        hookNames := (key, .numbered s.hooks.size) :: s.hookNames })
  | .missingSpans => (.raised .spansUnavailable, s)
  | .events key =>
    match s.names.hook key with
    | some hook =>
      let (events, s) := s.takeOutput hook
      (.value (.events events), s)
    | none => (.raised (.unknownKey (.str key)), s)
  | .parse e t options => andThen (s.parseWith e t options) fun o s => (told t o, s)
  | .expect e t options =>
    andThen (s.parseWith e t options) fun o s => (expected t o, s)
  | .unit e => s.withParser e fun p s =>
    andThen (s.execute (Rules.isUnit s.world limit p)) fun b s => (.value (.unit b), s)
  | .write e => s.withParser e fun p s => (.value (.written p.written), s)
  | .explain e expand => s.withParser e fun p s =>
    andThen (s.execute (Outline.explain s.world limit p expand)) fun t s => (.value (.explained t), s)
  | .parts e => s.withParser e fun p s => (.value (.parts (partsOf p)), s)
  | .equal e f => s.withParser e fun p s => s.withParser f fun q s => (.value (.equal (p.equal q)), s)
  | .sameResult e t i f u j =>
    andThen (s.parseWith e t i) fun o s =>
      andThen (s.parseWith f u j) fun r s => (.value (.equal (o.equal r)), s)
  | .sample sample => andThen (s.runSample (partsOfSample sample)) fun _ s => (.value .ran, s)
  | .tracing key config commands =>
    match s.names.hook key with
    | none => (.raised (.unknownKey (.str key)), s)
    | some hook =>
      let (rs, after) := performAll { s with state := s.state.under hook config } commands
      (.value (.replies rs), { after with state := s.state.ambientOf after.state })

/-- Performs commands one after another, each with what was printed meanwhile. -/
def performAll (s : Session) : List Command → List (Answer Reply × List Text) × Session
  | [] => ([], s)
  | c :: cs =>
    let (answer, s) := perform s c
    let (printed, s) := s.takePrinted
    let (rest, s) := performAll s cs
    ((answer, printed) :: rest, s)
end

end Session
end Peg
