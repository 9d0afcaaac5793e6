import Peg.Trace

/-! Computations over what a grammar remembers and what its tracing has recorded.
Every computation ends with a value, with a fault, or because its nesting limit was reached, and
in each case with a state: what was remembered before a fault stays remembered. -/
namespace Peg

/-- What is known of a rule: how often its supplier was asked, its body once that was built, and
whether it is a unit parser once that is settled. -/
structure RuleCell where
  calls : Nat := 0
  body : Option Parser := none
  unit : Option Bool := none

/-- A rule whose unit question is being answered, and the lowest place among those being answered
that its answer relies on. -/
structure Frame where
  rule : RuleId
  low : Nat

/-- What a grammar remembers between parses. -/
structure Memory where
  cell : RuleId → RuleCell := fun _ => {}
  /-- Which parts of a sequence are unit parsers. -/
  shape : Ident → Option (List Bool) := fun _ => none
  /-- The rules whose unit question is being answered, the innermost first. -/
  resolving : List Frame := []

/-- What tracing remembers: the calls of all hooks and what their owners see of them, each with the
newest first; the readings of the clock; and how many traced nodes are open. -/
structure Tracing where
  calls : List Call := []
  output : List (HookId × Event) := []
  readings : Nat := 0
  depth : Nat := 0

structure State where
  memory : Memory := {}
  tracing : Tracing := {}
  /-- The hook and the configuration for parses that bring none of their own. -/
  ambientHook : Option HookId := none
  ambientConfig : Option Config := none

/-- How a computation ends. -/
inductive Answer (α : Type)
  | value (a : α)
  | raised (fault : Fault)
  | exhausted

def Answer.map {α β : Type} (f : α → β) : Answer α → Answer β
  | value a => value (f a)
  | raised fault => raised fault
  | exhausted => exhausted

/-- A computation takes a state and gives an answer with the state after it. -/
def Run (α : Type) := State → Answer α × State

/-- Computations that can raise a fault, or be given up before they have an answer. -/
class Abrupt (m : Type → Type) where
  raise {α : Type} : Fault → m α
  exhaust {α : Type} : m α

namespace Run

variable {α β : Type}

def done (a : α) : Run α := fun s => (.value a, s)

def raise (fault : Fault) : Run α := fun s => (.raised fault, s)

def exhaust : Run α := fun s => (.exhausted, s)

def andThen (x : Run α) (f : α → Run β) : Run β := fun s =>
  match x s with
  | (.value a, s) => f a s
  | (.raised fault, s) => (.raised fault, s)
  | (.exhausted, s) => (.exhausted, s)

instance : Monad Run where
  pure := done
  bind := andThen

instance : Abrupt Run where
  raise := Run.raise
  exhaust := Run.exhaust

@[simp] theorem pure_apply (a : α) (s : State) : (pure a : Run α) s = (.value a, s) := rfl

theorem bind_apply (x : Run α) (f : α → Run β) (s : State) :
    (x >>= f) s = match x s with
      | (.value a, s) => f a s
      | (.raised fault, s) => (.raised fault, s)
      | (.exhausted, s) => (.exhausted, s) := rfl

theorem bind_of_value {x : Run α} {f : α → Run β} {s s' : State} {a : α}
    (h : x s = (.value a, s')) : (x >>= f) s = f a s' := by
  simp [bind_apply, h]

theorem bind_of_raised {x : Run α} {f : α → Run β} {s s' : State} {fault : Fault}
    (h : x s = (.raised fault, s')) : (x >>= f) s = (.raised fault, s') := by
  simp [bind_apply, h]

theorem bind_of_exhausted {x : Run α} {f : α → Run β} {s s' : State}
    (h : x s = (.exhausted, s')) : (x >>= f) s = (.exhausted, s') := by
  simp [bind_apply, h]

/-- A composite ends with a value only through a value of its first part. -/
theorem bind_eq_value_iff {x : Run α} {f : α → Run β} {s t : State} {b : β} :
    (x >>= f) s = (.value b, t) ↔ ∃ a u, x s = (.value a, u) ∧ f a u = (.value b, t) := by
  rw [bind_apply]
  rcases x s with ⟨a | fault | _, u⟩ <;> simp [and_assoc]

/-- A composite raises what its first part raises, or what its second part does. -/
theorem bind_eq_raised_iff {x : Run α} {f : α → Run β} {s t : State} {fault : Fault} :
    (x >>= f) s = (.raised fault, t) ↔
      x s = (.raised fault, t) ∨ ∃ a u, x s = (.value a, u) ∧ f a u = (.raised fault, t) := by
  rw [bind_apply]
  rcases x s with ⟨a | _ | _, u⟩ <;> simp [and_assoc]

instance : LawfulMonad Run := LawfulMonad.mk' Run
  (fun x => by funext s; change (x >>= fun a => pure (id a)) s = _; rw [bind_apply]; split <;> simp_all)
  (fun _ _ => rfl)
  (fun x f g => by
    funext s; rw [bind_apply, bind_apply, bind_apply]
    rcases x s with ⟨a | fault | _, s'⟩ <;> simp [bind_apply])

theorem map_apply (f : α → β) (x : Run α) (s : State) :
    (f <$> x) s = ((x s).1.map f, (x s).2) := by
  rw [← bind_pure_comp, bind_apply]
  rcases x s with ⟨a | fault | _, u⟩ <;> rfl

theorem map_eq_value_iff {f : α → β} {x : Run α} {s t : State} {b : β} :
    (f <$> x) s = (.value b, t) ↔ ∃ a, x s = (.value a, t) ∧ f a = b := by
  rw [map_apply]
  rcases x s with ⟨a | fault | _, u⟩
  · simp only [Answer.map, Prod.mk.injEq, Answer.value.injEq]
    exact ⟨fun h => ⟨a, ⟨rfl, h.2⟩, h.1⟩, fun ⟨_, ⟨ha, hu⟩, hb⟩ => ⟨ha ▸ hb, hu⟩⟩
  · simp [Answer.map]
  · simp [Answer.map]

@[simp] theorem raise_apply (fault : Fault) (s : State) :
    (raise fault : Run α) s = (.raised fault, s) := rfl

@[simp] theorem exhaust_apply (s : State) : (exhaust : Run α) s = (.exhausted, s) := rfl

/-- A part of the state. -/
def get (f : State → α) : Run α := fun s => (.value (f s), s)

@[simp] theorem get_apply (f : State → α) (s : State) : get f s = (.value (f s), s) := rfl

def modify (f : State → State) : Run Unit := fun s => (.value (), f s)

@[simp] theorem modify_apply (f : State → State) (s : State) : modify f s = (.value (), f s) := rfl

/-- Ends in a state set right by `restore`, whether it ends with a value, a fault or neither. -/
def ensuring (x : Run α) (restore : State → State) : Run α := fun s =>
  let r := x s
  (r.1, restore r.2)

@[simp] theorem ensuring_apply (x : Run α) (restore : State → State) (s : State) :
    ensuring x restore s = ((x s).1, restore (x s).2) := rfl

end Run
end Peg
