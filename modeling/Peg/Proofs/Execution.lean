import Peg.Proofs.Loops
import Peg.Proofs.Tracing

/-! Executions: what a parse runs, as a tree.
The recorder runs a parser as parsing does and notes every parser that is run, from where, with
what outcome, and what it ran in turn.  Main statement: forgetting what was noted gives back the
parse, so that the tree is the tree of that very run. -/
namespace Peg

/-- One run of a parser: where it began, what came of it, and the runs made for it, in order. -/
inductive Execution
  | mk (parser : Parser) (start : Int) (outcome : Outcome) (inner : List Execution)

namespace Execution

def parser : Execution → Parser
  | mk p _ _ _ => p

def start : Execution → Int
  | mk _ i _ _ => i

def outcome : Execution → Outcome
  | mk _ _ o _ => o

def inner : Execution → List Execution
  | mk _ _ _ xs => xs

end Execution

/-- A computation together with the executions that it makes, in order. -/
structure Recorded (α : Type) where
  run : Run (α × List Execution)

namespace Recorded

variable {α β : Type}

instance : Monad Recorded where
  pure a := ⟨pure (a,[])⟩
  bind x f := ⟨do
    let (a,xs) ← x.run
    let (b,ys) ← (f a).run
    pure (b,xs ++ ys)⟩

instance : Abrupt Recorded where
  raise fault := ⟨Run.raise fault⟩
  exhaust := ⟨Run.exhaust⟩

/-- A computation that runs no parser. -/
def silent (x : Run α) : Recorded α := ⟨(fun a => (a,[])) <$> x⟩

/-- The computation without what it noted. -/
def forget (x : Recorded α) : Run α := Prod.fst <$> x.run

/-- Notes a computation as one execution of a parser. -/
def note (p : Parser) (i : Int) (x : Recorded Outcome) : Recorded Outcome :=
  ⟨(fun a => (a.1,[.mk p i a.1 a.2])) <$> x.run⟩

@[simp] theorem run_pure (a : α) : (pure a : Recorded α).run = pure (a,[]) := rfl

@[simp] theorem run_bind (x : Recorded α) (f : α → Recorded β) :
    (x >>= f).run = x.run >>= fun a => (f a.1).run >>= fun b => pure (b.1,a.2 ++ b.2) := rfl

theorem forget_bind (x : Recorded α) (f : α → Recorded β) :
    forget (x >>= f) = forget x >>= fun a => forget (f a) := by
  simp only [forget,run_bind,map_bind,map_pure,bind_map_left]
  simp only [bind_pure_comp]

@[simp] theorem forget_silent (x : Run α) : forget (silent x) = x := by
  simp [forget,silent]

@[simp] theorem forget_note (p : Parser) (i : Int) (x : Recorded Outcome) :
    forget (note p i x) = forget x := by
  simp [forget,note]

/-- Forgetting is kept by composing, so that it goes through every loop. -/
theorem forget_congruence :
    Parsing.Congruence fun (β : Type) (x : Recorded β) (y : Run β) => forget x = y where
  done a := rfl
  bind := by
    intro α β x y f g hx hf
    rw [forget_bind,hx]
    exact congrArg _ (funext hf)
  raise _ := rfl
  exhaust := rfl

end Recorded

namespace Parsing

/-- The grammar and the hooks around a node, as in `surroundings`. -/
def recordedSurroundings (w : World) (c : Context) (n : Nat) : Surroundings Recorded where
  shape id parts := .silent ((surroundings w c n).shape id parts)
  rule r name i go := do
    let body ← Recorded.silent (Rules.body w r)
    match c.tracesRules with
    | some hook => ⟨Hooks.traced Prod.fst w c hook name i (go body).run⟩
    | none => go body
  log hook name i x := ⟨Hooks.logged Prod.fst w c hook name i x.run⟩

/-- Runs a parser from a position as `run` does, and notes every execution. -/
def record (w : World) (c : Context) : Nat → Parser → Int → Recorded Outcome
  | 0, _, _ => Abrupt.exhaust
  | n + 1, p, i => .note p i (node (recordedSurroundings w c n) c.text (record w c n) p i)

/-- What was noted aside, a recorded run is the run. -/
theorem forget_record (w : World) (c : Context) (n : Nat) (p : Parser) (i : Int) :
    Recorded.forget (record w c n p i) = run w c n p i := by
  have hR := Recorded.forget_congruence
  induction n generalizing p i with
  | zero => exact hR.exhaust
  | succ n ih =>
    rw [record,Recorded.forget_note]
    refine hR.node c.text p i (fun q _ => ih q) (fun _ _ _ _ _ q _ _ => ih q) ?_ ?_ ?_
    · exact fun id parts _ => Recorded.forget_silent _
    · intro r name _
      refine hR.bind (Recorded.forget_silent _) fun body => ?_
      cases c.tracesRules with
      | some hook =>
        exact (Hooks.map_traced w c hook name i Prod.fst id _).trans (congrArg _ (ih body i))
      | none => exact ih body i
    · intro id body name hook _
      exact (Hooks.map_logged w c name hook i Prod.fst (fun o => o) _).trans (congrArg _ (ih body i))

end Parsing
end Peg
