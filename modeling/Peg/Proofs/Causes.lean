import Peg.Proofs.Cut
import Peg.Proofs.Ends
import Peg.Proofs.Kinds

/-! What failures are blamed on.
A failure is that of the node itself or one that it passes on from a node that it ran.  Main
statements: everything that is run in a parse is what its parser does there at any time; and the
cause of a failure was run in the parse and failed there with itself as the cause, so that it fails
there again. -/
namespace Peg

open Relation

/-- Whether a node can be the cause of a failure. -/
def Parser.reports : Parser → Bool
  | .terminal _ .pass => false
  | .terminal .. | .choice _ | .rep .. | .not _ | .filter .. => true
  | .seq .. | .opt _ | .cut _ | .map .. | .flatMap .. | .capture _ | .rule .. | .log .. => false

namespace Execution

/-- In the course of these executions a parser that can be a cause was run from there, and failed
there with itself as the cause. -/
def Explain (xs : List Execution) (j : Int) (cause : Parser) : Prop :=
  ∃ x ∈ xs, ∃ y, x.Within y ∧ y.parser = cause ∧ y.start = j ∧ cause.reports = true ∧
    ∃ cut, y.outcome = .failure j cause cut

variable {xs ys : List Execution} {o : Outcome} {j : Int} {cause : Parser}

theorem Explain.mono (h : Explain xs j cause) (hs : ∀ x ∈ xs, x ∈ ys) : Explain ys j cause := by
  obtain ⟨x,hx,hy⟩ := h
  exact ⟨x,hs x hx,hy⟩

/-- What was run for an execution was run in its course. -/
theorem Explain.outer (h : Explain xs j cause) (p : Parser) (i : Int) (o : Outcome) :
    Explain [.mk p i o xs] j cause := by
  obtain ⟨x,hx,y,hy,hcause⟩ := h
  refine ⟨.mk p i o xs,by simp,y,?_,hcause⟩
  clear hcause
  induction hy with
  | self => exact .inside .self hx
  | inside _ hz ih => exact .inside ih hz

/-- An outcome that, if it is a failure, is that of the node itself or explained by what it ran. -/
inductive Accounted (p : Parser) (i : Int) : Outcome → List Execution → Prop
  | success {v : Value} {j : Int} {cut : Bool} {xs : List Execution} :
    Accounted p i (.success v j cut) xs
  | own {cut : Bool} {xs : List Execution} : p.reports = true → Accounted p i (.failure i p cut) xs
  | passed {j : Int} {cause : Parser} {cut : Bool} {xs : List Execution} :
    Explain xs j cause → Accounted p i (.failure j cause cut) xs

variable {p : Parser} {i : Int}

theorem Accounted.mono (h : Accounted p i o xs) (hs : ∀ x ∈ xs, x ∈ ys) : Accounted p i o ys := by
  cases h with
  | success => exact .success
  | own hr => exact .own hr
  | passed he => exact .passed (he.mono hs)

theorem Accounted.afterCut (h : Accounted p i o xs) (cut : Bool) :
    Accounted p i (o.afterCut cut) xs := by
  cases h with
  | success => exact .success
  | own hr => exact .own hr
  | passed he => exact .passed he

/-- Whatever ran a node need not account for its outcome any more. -/
theorem Accounted.noted (h : Accounted p i o xs) (q : Parser) (k : Int) :
    Accounted q k o [.mk p i o xs] := by
  cases h with
  | success => exact .success
  | @own cut _ hr =>
    exact .passed ⟨_,List.mem_singleton_self _,_,.self,rfl,rfl,hr,cut,rfl⟩
  | passed he => exact .passed (he.outer _ _ _)

end Execution

namespace Recorded

open Execution

variable {α : Type} {step : Parser → Int → Recorded Outcome} {p : Parser} {i : Int}

theorem Ensures.trivial (x : Recorded α) : Ensures x fun _ _ => True := fun _ _ _ _ _ => .intro

/-- What goes on after a success, and leaves a failure alone. -/
theorem Ensures.passOn {x : Recorded Outcome} {f : Outcome → Recorded Outcome}
    (hx : Ensures x (Accounted p i))
    (hf : ∀ j cause cut, f (.failure j cause cut) = pure (.failure j cause cut))
    (hs : ∀ v j cut, Ensures (f (.success v j cut)) (Accounted p i)) :
    Ensures (x >>= f) (Accounted p i) := by
  refine .bind hx fun o xs ho => ?_
  cases o with
  | failure j cause cut =>
    rw [hf]
    exact .done (ho.mono (by simp))
  | success v j cut => exact (hs v j cut).imp fun o ys h => h.mono fun _ => List.mem_append_right xs

theorem accounted_sequence (h : ∀ q k, Ensures (step q k) (Accounted p i))
    (parts : List (Parser × Bool)) (values : List Value) (cut : Bool) (k : Int) :
    Ensures (Parsing.sequence step parts values cut k) (Accounted p i) := by
  induction parts generalizing values cut k with
  | nil => exact .done .success
  | cons x rest ih =>
    obtain ⟨q,unit⟩ := x
    refine .bind (h q k) fun o xs ho => ?_
    cases o with
    | success v j c => exact (ih _ _ _).imp fun o ys h => h.mono fun _ => List.mem_append_right xs
    | failure j cause c => exact .done ((ho.afterCut cut).mono (by simp))

theorem accounted_choice (hp : p.reports = true) (branches : List Parser) :
    Ensures (Parsing.choice step p i branches) (Accounted p i) := by
  induction branches with
  | nil => exact .done (.own hp)
  | cons q qs ih =>
    refine .bind (.trivial _) fun o xs _ => ?_
    cases o with
    | success v j c => exact .done .success
    | failure j cause c =>
      cases c with
      | true => exact .done (.own hp)
      | false => exact ih.imp fun o ys h => h.mono fun _ => List.mem_append_right xs

theorem accounted_repetition (hp : p.reports = true) (element separator : Int → Recorded Outcome)
    (least : Nat) (most : Option Nat) (t : Text) :
    Ensures (Parsing.repetition element separator least most p t i) (Accounted p i) := by
  refine .bind (.trivial _) fun tally xs _ => ?_
  split
  · exact .done (.own hp)
  · exact .done .success

end Recorded

namespace Parsing

open Execution Recorded

/-- The outcome of every node that is run is accounted for, whatever ran it. -/
theorem record_accounted (w : World) (c : Context) (n : Nat) (p : Parser) (i : Int) (q : Parser)
    (k : Int) : Ensures (record w c n p i) (Accounted q k) := by
  induction n generalizing p i q k with
  | zero => exact .exhaust
  | succ n ih =>
    suffices h : Ensures (node (recordedSurroundings w c n) c.text (record w c n) p i)
        (Accounted p i) by
      refine h.note.imp ?_
      rintro o _ ⟨xs,rfl,ho⟩
      exact ho.noted q k
    have hstep (q : Parser) (k : Int) : Ensures (record w c n q k) (Accounted p i) := ih q k p i
    rw [node.eq_def]
    cases p with
    | terminal id s =>
      dsimp only
      rcases hs : s.scan c.text i with fault | _ | j
      · exact .raise
      · refine .done (.own ?_)
        cases s with
        | pass => cases hs
        | _ => rfl
      · exact .done .success
    | seq id parts =>
      refine .bind (.silent (Q := fun _ xs => xs = []) fun _ => rfl) ?_
      rintro units _ rfl
      exact (accounted_sequence hstep _ _ _ _).imp fun o xs h => h
    | choice branches => exact accounted_choice rfl branches
    | rep id element least most separator => exact accounted_repetition rfl _ _ _ _ _
    | opt body =>
      refine .bind (.trivial _) fun o xs _ => ?_
      cases o with
      | success v j cut => exact .done .success
      | failure j cause cut => exact .done .success
    | not body =>
      refine .bind (.trivial _) fun o xs _ => ?_
      cases o with
      | success v j cut => exact .done (.own rfl)
      | failure j cause cut => exact .done .success
    | cut body => exact .passOn (hstep body i) (fun _ _ _ => rfl) fun _ _ _ => .done .success
    | map id body f name =>
      refine .passOn (hstep body i) (fun _ _ _ => rfl) fun v j cut => ?_
      dsimp only
      cases f v with
      | ok u => exact .done .success
      | error fault => exact .raise
    | flatMap id body next name =>
      refine .passOn (hstep body i) (fun _ _ _ => rfl) fun v j cut => ?_
      dsimp only
      cases next v with
      | ok q => exact .bind (hstep q j) fun o xs ho => .done ((ho.afterCut cut).mono (by simp))
      | error fault => exact .raise
    | filter id body test name =>
      refine .passOn (hstep body i) (fun _ _ _ => rfl) fun v j cut => ?_
      dsimp only
      rcases test v with fault | _ | _
      · exact .raise
      · exact .done (.own rfl)
      · exact .done .success
    | capture body => exact .passOn (hstep body i) (fun _ _ _ => rfl) fun _ _ _ => .done .success
    | rule r name =>
      refine .bind (.silent (Q := fun _ xs => xs = []) fun _ => rfl) ?_
      rintro body _ rfl
      have hb : Ensures (record w c n body i) (Accounted (.rule r name) i) := hstep body i
      cases c.tracesRules with
      | some hook => exact hb.traced hook
      | none => exact hb
    | log id body name hook => exact Ensures.logged (hstep body i)

/-- Every failure is explained by what was run. -/
theorem record_explained {w : World} {c : Context} {n : Nat} {p : Parser} {i j : Int} {cause : Parser}
    {cut : Bool} {xs : List Execution} {s u : State}
    (h : (record w c n p i).run s = (.value (.failure j cause cut,xs),u)) : Explain xs j cause := by
  cases record_accounted w c n p i (.terminal (.named "pass") .pass) i _ _ _ _ h with
  | own hr => cases hr
  | passed he => exact he

end Parsing

namespace Grammar

open Recorded

variable {G : Grammar} {w : World} {c : Context} {t : Text} {refusals : RuleId → Nat} {α β : Type}

/-- An execution of a parser over a grammar with the outcome that the parser has there at any time,
and made of executions of what the parser leads to. -/
structure Faithful (G : Grammar) (t : Text) (x : Execution) : Prop where
  has : G.Has x.parser
  ends : G.Ends t x.parser x.start (.value x.outcome)
  leads : ∀ y ∈ x.inner, G.Leads x.parser y.parser

/-- What is run in the course of a faithful execution can be reached from its parser. -/
theorem leads_of_within {x y : Execution} (h : x.Throughout (G.Faithful t)) (hy : x.Within y) :
    ReflTransGen G.Leads x.parser y.parser := by
  induction hy with
  | self => exact .refl
  | @inside y z hxy hz ih =>
    cases h.within hxy with
    | mk hf _ => exact ih.tail (hf.leads z hz)

/-- A computation that leaves a settled memory settled, and then notes such executions only. -/
structure Tells (G : Grammar) (refusals : RuleId → Nat) (M : Execution → Prop) (x : Recorded α) :
    Prop where
  keeps : G.Keeps refusals x.run
  tells {s u : State} {a : α} {xs : List Execution} : G.Settled refusals s.memory →
    x.run s = (.value (a,xs),u) → ∀ y ∈ xs, M y

variable {M : Execution → Prop}

theorem Tells.bind {x : Recorded α} {f : α → Recorded β} (hx : G.Tells refusals M x)
    (hf : ∀ a, G.Tells refusals M (f a)) : G.Tells refusals M (x >>= f) where
  keeps := hx.keeps.bind fun a => (hf a.1).keeps.bind fun _ => .done _
  tells := by
    intro s u b zs hs hr y hy
    obtain ⟨⟨a,xs⟩,v,ha,hr⟩ := Run.bind_eq_value_iff.mp hr
    obtain ⟨⟨b',ys⟩,v',hb,hr⟩ := Run.bind_eq_value_iff.mp hr
    cases hr
    have hv := hx.keeps s hs
    rw [ha] at hv
    rcases List.mem_append.mp hy with hy | hy
    · exact hx.tells hs ha y hy
    · exact (hf a).tells hv hb y hy

theorem tells_closed : Parsing.Closed fun (α : Type) (x : Recorded α) => G.Tells refusals M x where
  done a := by
    refine ⟨.done _,?_⟩
    rintro s _ _ _ - ⟨⟩ y hy
    cases hy
  bind := .bind
  raise _ := ⟨fun _ hs => hs,fun _ hr => nomatch hr⟩
  exhaust := ⟨fun _ hs => hs,fun _ hr => nomatch hr⟩

theorem Tells.silent {x : Run α} (hx : G.Keeps refusals x) : G.Tells refusals M (.silent x) where
  keeps := hx.map _
  tells := by
    intro s u a xs _ hr y hy
    obtain ⟨b,-,hb⟩ := Run.map_eq_value_iff.mp hr
    cases hb
    cases hy

theorem Tells.traced {x : Recorded Outcome} (h : G.Tells refusals M x) (hook : HookId) (name : Text)
    (i : Int) : G.Tells refusals M ⟨Hooks.traced Prod.fst w c hook name i x.run⟩ where
  keeps := h.keeps.traced hook name i
  tells := by
    intro s u o xs hs hr
    have ht := Hooks.traced_traces w c hook name Prod.fst i x.run s
    rw [show Hooks.traced Prod.fst w c hook name i x.run s = _ from hr] at ht
    cases ht with
    | hidden _ hx => exact h.tells hs hx.symm
    | stopped _ _ ha => cases ha
    | @heard v _ _ _ _ hm _ ha =>
      exact h.tells (hm ▸ hs) (Prod.ext (Answer.heard_eq_value ha.symm) rfl)

theorem Tells.logged {x : Recorded Outcome} (h : G.Tells refusals M x) (own : Option HookId)
    (name : Text) (i : Int) : G.Tells refusals M ⟨Hooks.logged Prod.fst w c own name i x.run⟩ where
  keeps := h.keeps.logged own name i
  tells {s _ _ _} hs hr := (h.traced (Hooks.chosen w own c.hook s.tracing.calls) name i).tells hs hr

/-- What goes on with the body of a rule only ever goes on with that body. -/
theorem Tells.body (hw : G.Supplied w refusals) {r : RuleId} (hr : r ∈ G.rules)
    {f : Parser → Recorded α} (hf : G.Tells refusals M (f (G.body r))) :
    G.Tells refusals M (.silent (Rules.body w r) >>= f) := by
  have hrun : (Recorded.silent (Rules.body w r) >>= f).run =
      Rules.body w r >>= fun q => (f q).run := by
    simp [Recorded.silent]
  refine ⟨?_,?_⟩
  · rw [hrun]
    exact .body hw hr hf.keeps
  · intro s u a xs hs hx
    rw [hrun] at hx
    obtain ⟨q,v,hq,hx⟩ := Run.bind_eq_value_iff.mp hx
    obtain ⟨hv,ha⟩ := Asks.settled (body_asks hw hr : G.Asks w refusals [] True _ _) hs
    rw [hq] at hv ha
    obtain rfl : q = G.body r := ha
    exact hf.tells hv hx

/-- What is run for a node are such executions, if all that the node leads to notes only such. -/
theorem Tells.node (hw : G.Supplied w refusals) {n : Nat} {p : Parser} (hp : G.Has p) (i : Int)
    (h : ∀ q, G.Leads p q → ∀ j, G.Tells refusals M (Parsing.record w c n q j)) :
    G.Tells refusals M (Parsing.node (Parsing.recordedSurroundings w c n) c.text
      (Parsing.record w c n) p i) := by
  have hP : Parsing.Closed fun (α : Type) (x : Recorded α) => G.Tells refusals M x := tells_closed
  refine hP.node c.text p i (fun q hq j => h q (.down (.child hq)) j) ?_ ?_ ?_ ?_
  · rintro id body next name v q rfl hq j
    exact h q (.down (.next hq)) j
  · rintro id parts rfl
    exact .silent (.asks (parts_asks hw hp))
  · rintro r name rfl
    refine .body hw hp.mem_rules ?_
    cases c.tracesRules with
    | some hook => exact (h _ .body i).traced hook name i
    | none => exact h _ .body i
  · rintro id body name hook rfl
    exact (h body (.down (.child (by simp [Parser.children]))) i).logged hook name i

/-- A computation that leaves a settled memory settled; what it notes are faithful executions of
such parsers. -/
structure Notes (G : Grammar) (refusals : RuleId → Nat) (t : Text) (S : Parser → Prop)
    (x : Recorded α) : Prop where
  keeps : G.Keeps refusals x.run
  faithful {s u : State} {a : α} {xs : List Execution} : G.Settled refusals s.memory →
    x.run s = (.value (a,xs),u) → ∀ y ∈ xs, S y.parser ∧ y.Throughout (G.Faithful t)

/-- Everything that is run notes one execution, a faithful one. -/
theorem record_notes (hw : G.Supplied w refusals) (n : Nat) {p : Parser} (hp : G.Has p) (i : Int) :
    G.Notes refusals c.text (· = p) (Parsing.record w c n p i) := by
  induction n generalizing p i with
  | zero => exact ⟨fun _ hs => hs,fun _ hr => nomatch hr⟩
  | succ n ih =>
    have hnode : G.Tells refusals (fun y => G.Leads p y.parser ∧ y.Throughout (G.Faithful c.text))
        (Parsing.node (Parsing.recordedSurroundings w c n) c.text (Parsing.record w c n) p i) := by
      refine .node hw hp i fun q hq j => ⟨(ih (hp.leads hq) j).keeps,fun hs hr y hy => ?_⟩
      obtain ⟨hy,hf⟩ := (ih (hp.leads hq) j).faithful hs hr y hy
      exact ⟨hy ▸ hq,hf⟩
    refine ⟨hnode.keeps.map _,?_⟩
    intro s u o xs hs hr y hy
    have hrun : Parsing.run w c (n + 1) p i s = (.value o,u) := by
      rw [← Parsing.forget_record,forget,Run.map_eq_value_iff]
      exact ⟨_,hr,rfl⟩
    have heval : G.eval c.text (n + 1) p i = .value o :=
      (run_attains (c := c) hw (n + 1) hp i s hs).2 o (congrArg Prod.fst hrun)
    obtain ⟨⟨o',ys⟩,hx,hb⟩ := Run.map_eq_value_iff.mp hr
    cases hb
    obtain rfl := List.mem_singleton.mp hy
    refine ⟨rfl,.mk ⟨hp,.of_eval heval,fun z hz => ?_⟩ fun z hz => ?_⟩
    · exact (hnode.tells hs hx z hz).1
    · exact (hnode.tells hs hx z hz).2

/-- The cause of a failure is a node that can be a cause and can be reached.  It was run in the very
parse, from where the failure is, and failed there with itself as the cause; and so it fails there
in every parse that returns, and returns at every depth that is large enough, if no supplier refuses
and no hook raises. -/
theorem parse_cause (hw : G.Supplied w refusals) {p : Parser} (hp : G.Has p) {limit : Nat} {i : Int}
    {hook : Option HookId} {config : Option Config} {s : State} (hs : G.Settled refusals s.memory)
    {j : Int} {cause : Parser} {cut : Bool}
    (h : (Parsing.parse w limit p t i hook config s).1 = .value (.failure j cause cut)) :
    cause.reports = true ∧ ReflTransGen G.Leads p cause ∧ ∃ d,
      (∃ x u y, (Parsing.record w ⟨t,hook.or s.ambientHook,config.or s.ambientConfig⟩ limit p i).run
          (s.setDepth 0) = (.value (.failure j cause cut,[x]),u) ∧
        x.Within y ∧ y.parser = cause ∧ y.start = j ∧ y.outcome = .failure j cause d) ∧
      ∀ hook config s, G.Settled refusals s.memory →
        (∀ limit o, (Parsing.parse w limit cause t j hook config s).1 = .value o →
          o = .failure j cause d) ∧
        ((∀ r ∈ G.rules, refusals r = 0) → (∀ hook, (w.hook hook).Calm) → ∃ deep, ∀ limit ≥ deep,
          (Parsing.parse w limit cause t j hook config s).1 = .value (.failure j cause d)) := by
  have hrun : Parsing.run w ⟨t,hook.or s.ambientHook,config.or s.ambientConfig⟩ limit p i
      (s.setDepth 0) = (.value (.failure j cause cut),_) := Prod.ext h rfl
  rw [← Parsing.forget_record] at hrun
  obtain ⟨⟨o,xs⟩,hx,rfl⟩ := Run.map_eq_value_iff.mp hrun
  obtain ⟨x,rfl,-⟩ := Parsing.ensures_record _ _ _ _ _ _ _ _ _ hx
  obtain ⟨rfl,hfaithful⟩ :=
    (record_notes hw limit hp i).faithful (s := s.setDepth 0) hs hx x (List.mem_singleton_self x)
  obtain ⟨x',hx',y,hy,rfl,rfl,hreports,d,hd⟩ := Parsing.record_explained hx
  obtain rfl := List.mem_singleton.mp hx'
  refine ⟨hreports,leads_of_within hfaithful hy,d,⟨x',_,y,hx,hy,rfl,rfl,hd⟩,?_⟩
  intro hook config s hs
  cases hfaithful.within hy with
  | mk hf _ =>
    obtain ⟨hhas,hends,-⟩ := hf
    rw [hd] at hends
    refine ⟨fun limit o ho => ?_,fun h0 hc => ?_⟩
    · cases (ends_of_parse hw hhas hs ho).unique hends
      rfl
    · exact hends.parse hhas (by simp) (hw.of_refusals h0) hc hook config s (hs.of_refusals h0)

/-- What stands in the brackets is neither a letter nor brackets, and of that both are blamed. -/
theorem cause_in_brackets :
    let w : World := ⟨fun r _ => .ok (bracketed.body r),fun _ => .recording none,fun _ => 0⟩
    let brackets : Parser := .rule (.named "brackets") "brackets".toList
    let value : Parser := bracketed.body (.named "value")
    (Parsing.parse w 9 brackets "[b".toList 0 none none {}).1 = .value (.failure 1 value false) ∧
      value.reports = true ∧ ∃ d deep, ∀ limit ≥ deep,
        (Parsing.parse w limit value "[b".toList 1 none none {}).1 = .value (.failure 1 value d) := by
  intro w brackets value
  have h : (Parsing.parse w 9 brackets "[b".toList 0 none none {}).1 =
      .value (.failure 1 value false) := rfl
  have hw : bracketed.Supplied w fun _ => 0 := fun r _ => ⟨by simp,rfl⟩
  obtain ⟨hreports,-,d,-,hagain⟩ :=
    parse_cause hw (.rule (by simp [bracketed])) (settled_new bracketed _) h
  obtain ⟨-,hreturns⟩ := hagain none none {} (settled_new bracketed _)
  exact ⟨h,hreports,d,hreturns (fun _ _ => rfl) fun _ => Hook.calm_recording⟩

end Grammar
end Peg
