import Peg.Proofs.Loops
import Peg.Proofs.Tracing

/-! Programs that parse under tracing.
A program parses texts and opens stretches of tracing, one inside another, and each of them may end
with a fault; how it goes on depends on the answers and on all that hooks were told so far.  Main
statement: it does what it does without any stretch when every parse is given what it would have
found ambient, and it leaves what is ambient as it was. -/
namespace Peg

/-- The state with another ambient hook and configuration, or with none. -/
def State.within (hook : Option HookId) (config : Option Config) (s : State) : State :=
  { s with ambientHook := hook, ambientConfig := config }

/-- The end of a visit does not look at what is ambient. -/
theorem Hooks.ended_within (w : World) (v : Visit) (u : State) (happening? : Option Happening)
    (hook : Option HookId) (config : Option Config) :
    ended w v (u.within hook config) happening? = (ended w v u happening?).within hook config := by
  cases happening? <;> rfl

namespace Run

variable {α β : Type}

/-- A computation that neither looks at what is ambient nor changes it. -/
def Unaware (x : Run α) : Prop :=
  ∀ hook config s, x (s.within hook config) = ((x s).1,(x s).2.within hook config)

theorem Unaware.of_onMemory {x : Run α} (h : Rules.OnMemory x) : Unaware x := by
  intro hook config s
  have hs := h s s rfl
  rw [h s (s.within hook config) rfl]
  exact Prod.ext rfl (congrArg (State.within hook config) (congrArg Prod.snd hs)).symm

theorem Unaware.bind {x : Run α} {f : α → Run β} (hx : Unaware x) (hf : ∀ a, Unaware (f a)) :
    Unaware (x >>= f) := by
  intro hook config s
  rw [bind_apply,bind_apply,hx hook config s]
  rcases x s with ⟨a | fault | _,u⟩
  · exact hf a hook config u
  · rfl
  · rfl

theorem unaware_closed : Parsing.Closed fun (α : Type) (x : Run α) => Unaware x where
  done _ := fun _ _ _ => rfl
  bind := .bind
  raise _ := fun _ _ _ => rfl
  exhaust := fun _ _ _ => rfl

theorem Unaware.traced {w : World} {x : Run Outcome} (h : Unaware x) (c : Context) (own : HookId)
    (name : Text) (i : Int) : Unaware (Hooks.traced id w c own name i x) := by
  intro hook config s
  cases hd : Config.hides c.config s.tracing.depth with
  | true =>
    have hd' : Config.hides c.config (s.within hook config).tracing.depth = true := hd
    rw [Hooks.traced_hidden w c own name i id hd,Hooks.traced_hidden w c own name i id hd']
    exact h hook config s
  | false =>
    have hd' : Config.hides c.config (s.within hook config).tracing.depth = false := hd
    cases hf : (w.hook own).fault? s.tracing.calls
        (Hooks.entering c own name i s.tracing.depth) with
    | some fault =>
      have hf' : (w.hook own).fault? (s.within hook config).tracing.calls
          (Hooks.entering c own name i (s.within hook config).tracing.depth) = some fault := hf
      rw [Hooks.traced_refused c name i id hd hf,Hooks.traced_refused c name i id hd' hf']
      rfl
    | none =>
      have hinside : Hooks.inside w c own name i (s.within hook config) =
          (Hooks.inside w c own name i s).within hook config := rfl
      have hf' : (w.hook own).fault? (s.within hook config).tracing.calls
          (Hooks.entering c own name i (s.within hook config).tracing.depth) = none := hf
      rw [Hooks.traced_entered c name i id hd hf,Hooks.traced_entered c name i id hd' hf',hinside,
        h hook config (Hooks.inside w c own name i s)]
      exact Prod.ext rfl (Hooks.ended_within ..)

theorem Unaware.logged {w : World} {x : Run Outcome} (h : Unaware x) (c : Context)
    (own : Option HookId) (name : Text) (i : Int) : Unaware (Hooks.logged id w c own name i x) :=
  fun hook config s =>
    h.traced c (Hooks.chosen w own c.hook s.tracing.calls) name i hook config s

/-- Gives what a computation raises as a value; what has no answer is not caught. -/
def caught (x : Run α) : Run (Except Fault α) := fun s =>
  match x s with
  | (.value a,u) => (.value (.ok a),u)
  | (.raised fault,u) => (.value (.error fault),u)
  | (.exhausted,u) => (.exhausted,u)

theorem caught_get_bind (f : State → α) (g : α → Run β) :
    caught (get f >>= g) = get f >>= fun a => caught (g a) := rfl

/-- After something that was caught, only what follows can raise. -/
theorem caught_caught_bind (x : Run α) (f : Except Fault α → Run β) :
    caught (caught x >>= f) = caught x >>= fun a => caught (f a) := by
  funext s
  simp only [caught,bind_apply]
  rcases x s with ⟨a | fault | _,u⟩ <;> rfl

/-- One computation does under what is ambient what the other one does when nothing is, and keeps
what is ambient. -/
def Mirrors (hook : Option HookId) (config : Option Config) (x y : Run α) : Prop :=
  ∀ s : State, ∃ a u, y (s.within none none) = (a,State.within none none u) ∧
    x (s.within hook config) = (a,u.within hook config)

namespace Mirrors

variable {hook : Option HookId} {config : Option Config}

theorem done (a : α) : Mirrors hook config (pure a) (pure a) := fun s => ⟨.value a,s,rfl,rfl⟩

theorem raise (fault : Fault) : Mirrors hook config (Run.raise fault : Run α) (Run.raise fault) :=
  fun s => ⟨.raised fault,s,rfl,rfl⟩

theorem calls : Mirrors hook config (Run.get (·.tracing.calls)) (Run.get (·.tracing.calls)) :=
  fun s => ⟨.value s.tracing.calls,s,rfl,rfl⟩

theorem bind {x y : Run α} {f g : α → Run β} (h : Mirrors hook config x y)
    (hf : ∀ a, Mirrors hook config (f a) (g a)) : Mirrors hook config (x >>= f) (y >>= g) := by
  intro s
  obtain ⟨a,u,hy,hx⟩ := h s
  rw [bind_apply,bind_apply,hx,hy]
  rcases a with a | fault | _
  · exact hf a u
  · exact ⟨.raised fault,u,rfl,rfl⟩
  · exact ⟨.exhausted,u,rfl,rfl⟩

theorem caught {x y : Run α} (h : Mirrors hook config x y) :
    Mirrors hook config x.caught y.caught := by
  intro s
  obtain ⟨a,u,hy,hx⟩ := h s
  rw [Run.caught,Run.caught,hx,hy]
  rcases a with a | fault | _
  · exact ⟨.value (.ok a),u,rfl,rfl⟩
  · exact ⟨.value (.error fault),u,rfl,rfl⟩
  · exact ⟨.exhausted,u,rfl,rfl⟩

/-- A stretch of tracing does what its body does under the hook and the configuration of the
stretch. -/
theorem useTracing {x y : Run α} {own : HookId} {given : Option Config}
    (h : Mirrors (some own) (some (given.getD {})) x y) :
    Mirrors hook config (Parsing.useTracing own given x) y := by
  intro s
  obtain ⟨a,u,hy,hx⟩ := h s
  have hstretch : Parsing.useTracing own given x (s.within hook config) =
      ((x (s.within (some own) (some (given.getD {})))).1,
        (x (s.within (some own) (some (given.getD {})))).2.within hook config) := rfl
  rw [hx] at hstretch
  exact ⟨a,u,hy,hstretch⟩

end Mirrors

end Run

open Run

theorem Parsing.run_unaware (w : World) (c : Context) (n : Nat) (p : Parser) (i : Int) :
    Unaware (Parsing.run w c n p i) := by
  apply unaware_closed.run
  · exact fun r => .of_onMemory (.body r)
  · exact fun n id parts => .of_onMemory (.shape (.isUnit n) id parts)
  · exact fun hook name i x hx => hx.traced c hook name i
  · exact fun own name i x hx => hx.logged c own name i

/-- A parse that is asked for, with what it brings of its own. -/
structure Request where
  limit : Nat
  parser : Parser
  text : Text
  index : Int := 0
  hook : Option HookId := none
  config : Option Config := none

namespace Request

def run (w : World) (q : Request) : Run Outcome :=
  Parsing.parse w q.limit q.parser q.text q.index q.hook q.config

/-- The same parse, given a hook and a configuration where it brings none. -/
def given (hook : Option HookId) (config : Option Config) (q : Request) : Request :=
  { q with hook := q.hook.or hook, config := q.config.or config }

/-- A parse does under what is ambient what it does when it is given that. -/
theorem run_given (w : World) (hook : Option HookId) (config : Option Config) (q : Request) :
    Mirrors hook config (q.run w) ((q.given hook config).run w) := by
  intro s
  have hrun := Parsing.run_unaware w ⟨q.text,q.hook.or hook,q.config.or config⟩ q.limit q.parser
    q.index
  refine ⟨_,_,?_,hrun hook config (s.setDepth 0)⟩
  have hgiven : (q.given hook config).run w (s.within none none) =
      Parsing.run w ⟨q.text,(q.hook.or hook).or none,(q.config.or config).or none⟩ q.limit q.parser
        q.index ((s.setDepth 0).within none none) := rfl
  rw [hgiven,Option.or_none,Option.or_none]
  exact hrun none none (s.setDepth 0)

end Request

/-- A program ends with a value or a fault, or it parses or runs a stretch of tracing and goes on
from there: after a parse with its answer and with all calls of hooks so far, and after a stretch
with what the stretch ended with. -/
inductive Program
  | done (v : Value)
  | raise (fault : Fault)
  | parse (q : Request) (next : Except Fault Outcome → List Call → Program)
  | tracing (hook : HookId) (config : Option Config) (body : Program)
    (next : Except Fault Value → Program)

namespace Program

/-- Runs a program, whose stretches set what is ambient and set it back. -/
def run (w : World) : Program → Run Value
  | done v => pure v
  | raise fault => Run.raise fault
  | parse q next => do
    let answer ← caught (q.run w)
    let calls ← Run.get (·.tracing.calls)
    (next answer calls).run w
  | tracing hook config body next => do
    let answer ← caught (Parsing.useTracing hook config (body.run w))
    (next answer).run w

/-- Goes on where a program ends, with what it ended with. -/
def andThen (next : Except Fault Value → Program) : Program → Program
  | done v => next (.ok v)
  | raise fault => next (.error fault)
  | parse q more => parse q fun answer calls => (more answer calls).andThen next
  | tracing hook config body more =>
    tracing hook config body fun answer => (more answer).andThen next

theorem run_andThen (w : World) (next : Except Fault Value → Program) (P : Program) :
    (P.andThen next).run w = caught (P.run w) >>= fun answer => (next answer).run w := by
  induction P with
  | done v => rfl
  | raise fault => rfl
  | parse q more ih =>
    simp only [andThen,run,ih,caught_caught_bind,caught_get_bind,bind_assoc]
  | tracing hook config body more _ ih =>
    simp only [andThen,run,ih,caught_caught_bind,bind_assoc]

/-- No stretch of tracing is left. -/
inductive Plain : Program → Prop
  | done (v : Value) : Plain (done v)
  | raise (fault : Fault) : Plain (raise fault)
  | parse {q : Request} {next : Except Fault Outcome → List Call → Program} :
    (∀ answer calls, Plain (next answer calls)) → Plain (parse q next)

theorem Plain.andThen {P : Program} (h : P.Plain) {next : Except Fault Value → Program}
    (hnext : ∀ answer, (next answer).Plain) : (P.andThen next).Plain := by
  induction h with
  | done v => exact hnext (.ok v)
  | raise fault => exact hnext (.error fault)
  | parse _ ih => exact .parse ih

/-- The program without its stretches: every parse is given the hook and the configuration of the
innermost stretch around it, and those given here where there is none. -/
def explicit (hook : Option HookId) (config : Option Config) : Program → Program
  | done v => done v
  | raise fault => raise fault
  | parse q next => parse (q.given hook config) fun answer calls =>
    (next answer calls).explicit hook config
  | tracing own given body next =>
    (body.explicit (some own) (some (given.getD {}))).andThen fun answer =>
      (next answer).explicit hook config

theorem explicit_plain (P : Program) (hook : Option HookId) (config : Option Config) :
    (P.explicit hook config).Plain := by
  induction P generalizing hook config with
  | done v => exact .done v
  | raise fault => exact .raise fault
  | parse q next ih => exact .parse fun answer calls => ih answer calls hook config
  | tracing own given body next ihbody ih =>
    exact (ihbody _ _).andThen fun answer => ih answer hook config

/-- What a program does under what is ambient it does without its stretches when nothing is. -/
theorem run_mirrors (w : World) (P : Program) (hook : Option HookId) (config : Option Config) :
    Mirrors hook config (P.run w) ((P.explicit hook config).run w) := by
  induction P generalizing hook config with
  | done v => exact .done v
  | raise fault => exact .raise fault
  | parse q next ih =>
    refine (q.run_given w hook config).caught.bind fun answer => ?_
    exact Mirrors.calls.bind fun calls => ih answer calls hook config
  | tracing own given body next ihbody ih =>
    rw [explicit,run_andThen]
    exact (ihbody _ _).useTracing.caught.bind fun answer => ih answer hook config

/-- Outside all stretches a program does what it does without them, when every parse is given its
hook and its configuration: its own, or else those of the innermost stretch around it.  Under any
hook and configuration it does the same when those are given to the parses outside all stretches,
and it keeps them; and a stretch, however it ends, sets back those before it. -/
theorem run_eq_run_explicit (w : World) (P : Program) (s : State) :
    P.run w (s.within none none) = (P.explicit none none).run w (s.within none none) ∧
      (P.explicit none none).Plain ∧ ∀ hook config,
        (let r := (P.explicit hook config).run w (s.within none none)
        P.run w (s.within hook config) = (r.1,r.2.within hook config)) ∧
        ∀ own given,
          let r := (P.explicit (some own) (some (given.getD {}))).run w (s.within none none)
          Parsing.useTracing own given (P.run w) (s.within hook config) =
            (r.1,r.2.within hook config) := by
  refine ⟨?_,P.explicit_plain none none,fun hook config => ⟨?_,fun own given => ?_⟩⟩
  · obtain ⟨a,u,hplain,hrun⟩ := P.run_mirrors w none none s
    rw [hplain,hrun]
  · obtain ⟨a,u,hplain,hrun⟩ := P.run_mirrors w hook config s
    rw [hplain,hrun]
    rfl
  · obtain ⟨a,u,hplain,hrun⟩ := (P.run_mirrors w (some own) (some (given.getD {}))).useTracing s
    rw [hplain,hrun]
    rfl

/-- A parse that follows an inner stretch which a fault ended is in the outer stretch again. -/
example (outer inner : HookId) (c : Config) (fault : Fault) (q : Request) :
    (tracing outer (some c) (tracing inner none (raise fault) fun _ => parse q fun _ _ => done .none)
      fun _ => parse q fun _ _ => done .none).explicit none none =
        parse (q.given (some outer) (some c)) fun _ _ => parse (q.given none none) fun _ _ =>
          done .none := rfl

end Program
end Peg
