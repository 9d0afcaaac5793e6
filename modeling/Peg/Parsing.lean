import Peg.Hooks

/-! Running parsers.
A cut seen in a success is carried on by what follows it; a choice clears it when a branch
succeeds and stops at a branch that fails with it; an option and a negation take it in. -/
namespace Peg

/-- What running a parser from a position does. -/
abbrev Step := Int → Run Outcome

/-- No values give nothing, one gives itself, and more give a tuple. -/
def pack : List Value → Value
  | [] => .none
  | [v] => v
  | vs => .tuple vs

/-- How far a repetition has come: its values with the newest first, how many rounds succeeded,
whether a cut was seen, and where the last element ended. -/
structure Tally where
  values : List Value
  count : Nat
  cut : Bool
  stop : Int

namespace State

/-- The state with another ambient hook, and with a configuration that has the defaults when none
is given. -/
def under (hook : HookId) (config : Option Config) (s : State) : State :=
  { s with ambientHook := some hook, ambientConfig := some (config.getD {}) }

/-- The state with the ambient hook and configuration of another one. -/
def ambientOf (before s : State) : State :=
  { s with ambientHook := before.ambientHook, ambientConfig := before.ambientConfig }

end State

namespace Parsing

section Loops

variable {m : Type → Type} [Monad m]

/-- Runs the parts of a sequence and gathers the values of those that are no unit parsers. -/
@[specialize] def sequence (step : Parser → Int → m Outcome) :
    List (Parser × Bool) → List Value → Bool → Int → m Outcome
  | [], values, cut, i => pure (.success (pack values.reverse) i cut)
  | (p, unit) :: rest, values, cut, i => do
    match ← step p i with
    | .failure j cause c => pure (.failure j cause (cut || c))
    | .success v j c => sequence step rest (if unit then values else v :: values) (cut || c) j

/-- Tries branches until one succeeds or fails with a cut. -/
@[specialize] def choice (step : Parser → Int → m Outcome) (whole : Parser) (i : Int) :
    List Parser → m Outcome
  | [] => pure (.failure i whole false)
  | p :: ps => do
    match ← step p i with
    | .success v j _ => pure (.success v j false)
    | .failure _ _ c => if c then pure (.failure i whole true) else choice step whole i ps

/-- What stands before an element: nothing before the first, else the separator. -/
@[specialize] def gap (separator : Int → m Outcome) (t : Tally) : m Outcome :=
  if t.count = 0 then pure (.success .none t.stop false) else separator t.stop

variable [Abrupt m]

/-- Rounds of a repetition.  A round that ends where the last element ended is not followed by
another one, once there are enough. -/
@[specialize] def rounds (element separator : Int → m Outcome) (least : Nat) (most : Option Nat) :
    Nat → Tally → m Tally
  | fuel, t =>
    if most.any (· ≤ t.count) then pure t
    else match fuel with
      | 0 => Abrupt.exhaust
      | fuel + 1 => do
        match ← gap separator t with
        | .failure _ _ c => pure { t with cut := t.cut || c }
        | .success _ start c =>
          match ← element start with
          | .failure _ _ d => pure { t with cut := t.cut || c || d }
          | .success v j d =>
            let next : Tally := ⟨v :: t.values, t.count + 1, t.cut || c || d, j⟩
            if j = t.stop ∧ least ≤ next.count then pure next
            else rounds element separator least most fuel next

/-- How many rounds a repetition can take from a position: each one after the least count moves
on, and one fails. -/
def roundLimit (t : Text) (least : Nat) (i : Int) : Nat := max least 1 + (t.length - i).toNat + 1

@[specialize] def repetition (element separator : Int → m Outcome) (least : Nat)
    (most : Option Nat) (whole : Parser) (t : Text) (i : Int) : m Outcome := do
  let tally ← rounds element separator least most (roundLimit t least i) ⟨[], 0, false, i⟩
  if tally.count < least then pure (.failure i whole tally.cut)
  else pure (.success (.list tally.values.reverse) tally.stop tally.cut)

/-- What running a node takes besides running the nodes below it: telling which parts of a sequence
are unit parsers, going on with the body of a rule, and logging. -/
structure Surroundings (m : Type → Type) where
  shape : Ident → List Parser → m (List Bool)
  rule : RuleId → Text → Int → (Parser → m Outcome) → m Outcome
  log : Option HookId → Text → Int → m Outcome → m Outcome

/-- Runs a node from a position; `step` runs the nodes below it. -/
@[specialize] def node (e : Surroundings m) (t : Text) (step : Parser → Int → m Outcome)
    (p : Parser) (i : Int) : m Outcome :=
  match p with
  | .terminal _ s =>
    match s.scan t i with
    | .ok (some j) => pure (.success .none j false)
    | .ok none => pure (.failure i p false)
    | .error fault => Abrupt.raise fault
  | .seq id parts => do
    let units ← e.shape id parts
    sequence step (parts.zip units) [] false i
  | .choice branches => choice step p i branches
  | .rep _ element least most separator =>
    repetition (step element) (step separator) least.toNat (most.map (·.toNat)) p t i
  | .opt body => do
    match ← step body i with
    | .success v j cut => pure (.success v j cut)
    | .failure .. => pure (.success .none i false)
  | .not body => do
    match ← step body i with
    | .success .. => pure (.failure i p false)
    | .failure .. => pure (.success .none i false)
  | .cut body => do
    match ← step body i with
    | .success v j _ => pure (.success v j true)
    | .failure j cause cut => pure (.failure j cause cut)
  | .map _ body f _ => do
    match ← step body i with
    | .success v j cut =>
      match f v with
      | .ok v => pure (.success v j cut)
      | .error fault => Abrupt.raise fault
    | .failure j cause cut => pure (.failure j cause cut)
  | .flatMap _ body next _ => do
    match ← step body i with
    | .success v j cut =>
      match next v with
      | .ok following => do
        let o ← step following j
        pure (o.afterCut cut)
      | .error fault => Abrupt.raise fault
    | .failure j cause cut => pure (.failure j cause cut)
  | .filter _ body test _ => do
    match ← step body i with
    | .success v j cut =>
      match test v with
      | .ok true => pure (.success v j cut)
      | .ok false => pure (.failure i p cut)
      | .error fault => Abrupt.raise fault
    | .failure j cause cut => pure (.failure j cause cut)
  | .capture body => do
    match ← step body i with
    | .success _ j cut => pure (.success (.str (t.slice i j)) j cut)
    | .failure j cause cut => pure (.failure j cause cut)
  | .rule r name => e.rule r name i fun body => step body i
  | .log _ body name hook => e.log hook name i (step body i)

end Loops

/-- The grammar and the hooks around a node; the number bounds how deep unit questions nest. -/
def surroundings (w : World) (c : Context) (n : Nat) : Surroundings Run where
  shape := Rules.shape (Rules.isUnit w n)
  rule r name i go := do
    let body ← Rules.body w r
    match c.tracesRules with
    | some hook => Hooks.traced id w c hook name i (go body)
    | none => go body
  log own name i x := Hooks.logged id w c own name i x

/-- Runs a parser from a position.  The first number bounds the nesting. -/
def run (w : World) (c : Context) : Nat → Parser → Step
  | 0, _ => fun _ => Run.exhaust
  | n + 1, p => node (surroundings w c n) c.text (run w c n) p

/-- Parses a text from a position.  A hook or configuration that is not given is the ambient one;
the traced nodes of a parse are counted from its own outermost one. -/
def parse (w : World) (limit : Nat) (p : Parser) (t : Text) (i : Int) (hook : Option HookId)
    (config : Option Config) : Run Outcome := do
  let ambientHook ← Run.get (·.ambientHook)
  let ambientConfig ← Run.get (·.ambientConfig)
  Run.modify (·.setDepth 0)
  run w ⟨t, hook.or ambientHook, config.or ambientConfig⟩ limit p i

/-- Runs a computation under an ambient hook and configuration, and goes back to those before it
however it ends. -/
def useTracing {α : Type} (hook : HookId) (config : Option Config) (body : Run α) : Run α := fun s =>
  Run.ensuring body s.ambientOf (s.under hook config)

end Parsing
end Peg
