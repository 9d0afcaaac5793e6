import Peg.Proofs.Loops
import Peg.Proofs.Tracing

/-! Traced nodes as trees.
What a computation traces is a forest: every node stands with the nodes inside it and with how it
ended.  Main statement: whatever a run that ends does to hooks and to the clock, it does by tracing a
forest from the state where it begins. -/
namespace Peg

/-- How a traced node ended that its hook was told of, and how long it took. -/
inductive TraceTree.Ending
  | left (outcome : Outcome) (duration : Rat)
  | failed (fault : Fault) (duration : Rat)

/-- A traced node with those inside it; or a node that its hook kept from running; or one through
which something passed that is no error, and whose end nobody was told of. -/
inductive TraceTree
  | refused (visit : Visit) (context : Context) (index : Int)
  | node (visit : Visit) (context : Context) (index : Int) (inner : List TraceTree)
      (ending : TraceTree.Ending)
  | abandoned (visit : Visit) (context : Context) (index : Int) (inner : List TraceTree)

namespace TraceTree

def Ending.duration : Ending → Rat
  | left _ duration => duration
  | failed _ duration => duration

/-- What the hook of a node is told when the node is closed. -/
def Ending.happening (c : Context) (i : Int) (depth : Nat) : Ending → Happening
  | left o duration => .left c i o duration depth
  | failed fault duration => .failed fault duration

mutual
/-- The calls for a node and those inside it, as they stand in the record. -/
def calls : TraceTree → List Call
  | refused v c i => [v.call (.entered c i v.depth)]
  | node v c i inner ending =>
    v.call (.entered c i v.depth) ::
      (callsAll inner ++ [v.call (ending.happening c i v.depth)])
  | abandoned v c i inner => v.call (.entered c i v.depth) :: callsAll inner

def callsAll : List TraceTree → List Call
  | [] => []
  | t :: ts => calls t ++ callsAll ts
end

end TraceTree

namespace Tracing

open Hooks

variable (w : World) (c : Context) (hook : HookId) (name : Text) (i : Int) (t : Tracing)

/-- After a hook was told that a node is entered. -/
def asked : Tracing := t.tell (w.hook hook) (entering c hook name i t.depth)

/-- Where a node runs whose hook let it in. -/
def opened : Tracing :=
  { t.asked w c hook name i with readings := t.readings + 1, depth := t.depth + 1 }

/-- After a node was closed. -/
def closed (v : Visit) (happening : Happening) : Tracing :=
  { t.tell (w.hook v.hook) (v.call happening) with readings := t.readings + 1, depth := v.depth }

/-- After a node was abandoned. -/
def left (v : Visit) : Tracing := { t with depth := v.depth }

section Calls

variable {w c i t} {v : Visit}

/-- A node that its hook lets in stands in the record with its span. -/
theorem calls_asked_of_ok (hd : v.depth = t.depth)
    (ha : (w.hook v.hook).answer t.calls (entering c v.hook v.name i t.depth) = .ok v.span) :
    (t.asked w c v.hook v.name i).calls = v.call (.entered c i v.depth) :: t.calls := by
  simp only [asked,tell,ha,hd,Visit.call]
  rfl

theorem calls_asked_of_error {fault : Fault} (hd : v.depth = t.depth) (hs : v.span = none)
    (ha : (w.hook v.hook).answer t.calls (entering c v.hook v.name i t.depth) = .error fault) :
    (t.asked w c v.hook v.name i).calls = v.call (.entered c i v.depth) :: t.calls := by
  simp only [asked,tell,ha,hd,hs,Visit.call]
  rfl

theorem calls_closed (v : Visit) (e : TraceTree.Ending) (c : Context) (i : Int) (d : Nat) :
    (t.closed w v (e.happening c i d)).calls = v.call (e.happening c i d) :: t.calls := by
  cases e <;> rfl

end Calls

end Tracing

namespace TraceTree

open Hooks

/-- What tracing goes through while a forest is traced: every node is told of to its hook before what
is inside it, and after it unless what is no error passes through it; the clock is read right after
the first call and right before the second.  Nothing follows a node that was abandoned, and none
stands inside a node that was closed. -/
inductive Traced (w : World) : Bool → Tracing → List TraceTree → Tracing → Prop
  | nil {escapes : Bool} {t : Tracing} : Traced w escapes t [] t
  | refused {escapes : Bool} {t t' : Tracing} {v : Visit} {c : Context} {i : Int} {fault : Fault}
    {rest : List TraceTree} : v.depth = t.depth → v.span = none →
    (w.hook v.hook).answer t.calls (entering c v.hook v.name i t.depth) = .error fault →
      Traced w escapes (t.asked w c v.hook v.name i) rest t' →
        Traced w escapes t (.refused v c i :: rest) t'
  | node {escapes : Bool} {t u t' : Tracing} {v : Visit} {c : Context} {i : Int} {ending : Ending}
    {inner rest : List TraceTree} : v.depth = t.depth →
    (w.hook v.hook).answer t.calls (entering c v.hook v.name i t.depth) = .ok v.span →
      Traced w false (t.opened w c v.hook v.name i) inner u →
        ending.duration = (w.clock u.readings - w.clock t.readings) * 1000 →
          Traced w escapes (u.closed w v (ending.happening c i v.depth)) rest t' →
            Traced w escapes t (.node v c i inner ending :: rest) t'
  | abandoned {t u : Tracing} {v : Visit} {c : Context} {i : Int} {inner : List TraceTree} :
    v.depth = t.depth →
    (w.hook v.hook).answer t.calls (entering c v.hook v.name i t.depth) = .ok v.span →
      Traced w true (t.opened w c v.hook v.name i) inner u →
        Traced w true t [.abandoned v c i inner] (u.left v)

namespace Traced

variable {w : World} {escapes : Bool} {t u v : Tracing} {ts us : List TraceTree}

theorem append (h : Traced w false t ts u) (h' : Traced w escapes u us v) :
    Traced w escapes t (ts ++ us) v := by
  generalize hfalse : false = e at h
  induction h with
  | nil => exact h'
  | refused hd hs ha _ ih => exact .refused hd hs ha (ih h' hfalse)
  | node hd ha hinner ht _ _ ih => exact .node hd ha hinner ht (ih h' hfalse)
  | abandoned => cases hfalse

/-- The calls that were made are those of the forest. -/
theorem calls (h : Traced w escapes t ts u) : u.calls = (callsAll ts).reverse ++ t.calls := by
  induction h with
  | nil => rfl
  | refused hd hs ha _ ih =>
    rw [ih,Tracing.calls_asked_of_error hd hs ha]
    simp [callsAll,TraceTree.calls]
  | node hd ha _ _ _ ihinner ih =>
    rw [ih,Tracing.calls_closed,ihinner,Tracing.opened,Tracing.calls_asked_of_ok hd ha]
    simp [callsAll,TraceTree.calls]
  | abandoned hd ha _ ihinner =>
    rw [Tracing.left,ihinner,Tracing.opened,Tracing.calls_asked_of_ok hd ha]
    simp [callsAll,TraceTree.calls]

end Traced
end TraceTree

/-- Whether something ends a computation that is no error. -/
def Answer.escapes {α : Type} : Answer α → Bool
  | .raised fault => !fault.isError
  | _ => false

namespace Run

open TraceTree

variable {w : World} {α β : Type}

/-- Whenever a computation ends, it has traced a forest. -/
def Traces (w : World) (x : Run α) : Prop :=
  ∀ s, (x s).1 ≠ .exhausted →
    ∃ forest, Traced w (x s).1.escapes s.tracing forest (x s).2.tracing

theorem Traces.of_untold {x : Run α} (h : Rules.Untold x) : Traces w x := by
  intro s _
  rw [h s]
  exact ⟨[],.nil⟩

theorem Traces.bind {x : Run α} {f : α → Run β} (hx : Traces w x) (hf : ∀ a, Traces w (f a)) :
    Traces w (x >>= f) := by
  intro s hne
  have hxs := hx s
  rw [bind_apply] at hne ⊢
  rcases hx' : x s with ⟨a | fault | _,u⟩
  all_goals rw [hx'] at hne hxs
  · obtain ⟨ts,hts⟩ := hxs (by simp)
    obtain ⟨us,hus⟩ := hf a u hne
    exact ⟨ts ++ us,hts.append hus⟩
  · exact hxs (by simp)
  · exact absurd rfl hne

theorem traces_closed (w : World) : Parsing.Closed fun (α : Type) (x : Run α) => Traces w x where
  done _ := .of_untold fun _ => rfl
  bind := .bind
  raise _ := .of_untold fun _ => rfl
  exhaust := fun _ hne => absurd rfl hne

theorem Traces.traced {x : Run Outcome} (h : Traces w x) (c : Context) (hook : HookId) (name : Text)
    (i : Int) : Traces w (Hooks.traced id w c hook name i x) := by
  intro s hne
  cases hd : Config.hides c.config s.tracing.depth with
  | true =>
    rw [Hooks.traced_hidden w c hook name i id hd] at hne ⊢
    exact h s hne
  | false =>
    cases hf : (w.hook hook).answer s.tracing.calls
      (Hooks.entering c hook name i s.tracing.depth) with
    | error fault =>
      rw [Hooks.traced_refused c name i id hd (by rw [Hook.fault?,hf])]
      exact ⟨_,.refused (v := ⟨hook,none,name,s.tracing.depth⟩) rfl rfl hf .nil⟩
    | ok span =>
      rw [Hooks.traced_entered c name i id hd (by rw [Hook.fault?,hf])] at hne ⊢
      have hvisit : Hooks.visit w c hook name i s = ⟨hook,span,name,s.tracing.depth⟩ := by
        simp only [Hooks.visit,hf]
      have hs := h (Hooks.inside w c hook name i s)
      rw [hvisit] at hne ⊢
      rcases hx : x (Hooks.inside w c hook name i s) with ⟨o | fault | _,u⟩
      all_goals rw [hx] at hne hs
      · obtain ⟨inner,hinner⟩ := hs (by simp)
        exact ⟨[.node ⟨hook,span,name,s.tracing.depth⟩ c i inner (.left o (Hooks.duration w s u))],
          .node rfl hf hinner rfl .nil⟩
      · obtain ⟨inner,hinner⟩ := hs (by simp)
        cases herror : fault.isError with
        | true =>
          simp only [Answer.escapes,herror,Bool.not_true] at hinner
          simp only [Answer.happening?,herror,if_pos]
          exact ⟨[.node ⟨hook,span,name,s.tracing.depth⟩ c i inner
            (.failed fault (Hooks.duration w s u))],.node rfl hf hinner rfl .nil⟩
        | false =>
          simp only [Answer.escapes,herror,Bool.not_false] at hinner
          simp only [Answer.happening?,herror,Bool.false_eq_true,if_false,Hooks.told,
            Option.bind_none,Answer.heard_none,Answer.escapes,Bool.not_false]
          exact ⟨_,.abandoned (v := ⟨hook,span,name,s.tracing.depth⟩) rfl hf hinner⟩
      · exact absurd rfl hne

end Run

namespace Parsing

open Run

variable {w : World}

theorem run_traces (c : Context) (n : Nat) (p : Parser) (i : Int) : Traces w (run w c n p i) := by
  apply (traces_closed w).run
  · exact fun r => .of_untold (Rules.untold_body w r)
  · exact fun n id parts => .of_untold (Rules.untold_shape w n id parts)
  · exact fun hook name i x hx => hx.traced c hook name i
  · exact fun own name i x hx s => hx.traced c (Hooks.chosen w own c.hook s.tracing.calls) name i s

end Parsing
end Peg
