import Mathlib.Logic.Relation
import Peg.Outline

/-! Grammars: finitely many rules with their bodies, closed under the rules that occur in them.
Main definitions: the parsers over a grammar, and the unit parsers among them, told by what can be
reached and not by asking. -/
namespace Peg

/-- The parsers over given rules, in which every sequence has the parts that go with its name; also
what is chosen by a value has to be one of them. -/
inductive Parser.Over (rules : List RuleId) (parts : Ident → Option (List Parser)) : Parser → Prop
  | terminal {id : Ident} {t : Terminal} : Over rules parts (.terminal id t)
  | seq {id : Ident} {ps : List Parser} :
    parts id = some ps → (∀ p ∈ ps, Over rules parts p) → Over rules parts (.seq id ps)
  | choice {ps : List Parser} : (∀ p ∈ ps, Over rules parts p) → Over rules parts (.choice ps)
  | rep {id : Ident} {p q : Parser} {least : Quantity} {most : Option Quantity} :
    Over rules parts p → Over rules parts q → Over rules parts (.rep id p least most q)
  | opt {p : Parser} : Over rules parts p → Over rules parts (.opt p)
  | not {p : Parser} : Over rules parts p → Over rules parts (.not p)
  | cut {p : Parser} : Over rules parts p → Over rules parts (.cut p)
  | map {id : Ident} {p : Parser} {f : Value → Except Fault Value} {name : Text} :
    Over rules parts p → Over rules parts (.map id p f name)
  | flatMap {id : Ident} {p : Parser} {next : Value → Except Fault Parser} {name : Text} :
    Over rules parts p → (∀ v q, next v = .ok q → Over rules parts q) →
      Over rules parts (.flatMap id p next name)
  | filter {id : Ident} {p : Parser} {test : Value → Except Fault Bool} {name : Text} :
    Over rules parts p → Over rules parts (.filter id p test name)
  | capture {p : Parser} : Over rules parts p → Over rules parts (.capture p)
  | rule {r : RuleId} {name : Text} : r ∈ rules → Over rules parts (.rule r name)
  | log {id : Ident} {p : Parser} {name : Text} {hook : Option HookId} :
    Over rules parts p → Over rules parts (.log id p name hook)

@[simp] theorem Parser.over_terminal {rules : List RuleId} {parts : Ident → Option (List Parser)}
    (id : Ident) (t : Terminal) : (Parser.terminal id t).Over rules parts :=
  .terminal

/-- Finitely many rules with their bodies, which mention no other rules. -/
structure Grammar where
  rules : List RuleId
  body : RuleId → Parser
  /-- The parts of the sequence of a name. -/
  parts : Ident → Option (List Parser)
  closed : ∀ r ∈ rules, (body r).Over rules parts

/-- One step down in a parser: to a node right below, or to a parser that a flat map may go on
with. -/
inductive Parser.Down : Parser → Parser → Prop
  | child {p q : Parser} : q ∈ p.children → Down p q
  | next {id : Ident} {body : Parser} {next : Value → Except Fault Parser} {name : Text} {v : Value}
    {q : Parser} : next v = .ok q → Down (.flatMap id body next name) q

/-- What holds of a parser if it holds of all that lies below it holds of every parser over a
grammar. -/
@[elab_as_elim]
theorem Parser.Over.downward {rules : List RuleId} {parts : Ident → Option (List Parser)}
    {motive : Parser → Prop} (h : ∀ p, p.Over rules parts → (∀ q, p.Down q → motive q) → motive p)
    {p : Parser} (hp : p.Over rules parts) : motive p := by
  induction hp with
  | terminal =>
    refine h _ .terminal fun q hq => ?_
    cases hq with
    | child hq => cases hq
  | rule hr =>
    refine h _ (.rule hr) fun q hq => ?_
    cases hq with
    | child hq => cases hq
  | seq hs hp ih =>
    refine h _ (.seq hs hp) fun q hq => ?_
    cases hq with
    | child hq => exact ih q hq
  | choice hp ih =>
    refine h _ (.choice hp) fun q hq => ?_
    cases hq with
    | child hq => exact ih q hq
  | rep hp hs ihp ihs =>
    refine h _ (.rep hp hs) fun q hq => ?_
    cases hq with
    | child hq =>
      rcases List.mem_cons.mp hq with rfl | hq
      · exact ihp
      · exact List.mem_singleton.mp hq ▸ ihs
  | flatMap hp hn ihp ihn =>
    refine h _ (.flatMap hp hn) fun q hq => ?_
    cases hq with
    | child hq => exact List.mem_singleton.mp hq ▸ ihp
    | next hq => exact ihn _ q hq
  | opt hp ih | not hp ih | cut hp ih | map hp ih | filter hp ih | capture hp ih | log hp ih =>
    refine h _ (by constructor; exact hp) fun q hq => ?_
    cases hq with
    | child hq => exact List.mem_singleton.mp hq ▸ ih

/-- Whether a parser makes a value of its own. -/
def Parser.makesValue : Parser → Bool
  | map .. | flatMap .. | capture _ => true
  | _ => false

namespace Grammar

variable (G : Grammar)

/-- The parsers over a grammar. -/
def Has (p : Parser) : Prop := p.Over G.rules G.parts

/-- One step down over a grammar, or from a rule to its body. -/
inductive Leads : Parser → Parser → Prop
  | down {p q : Parser} : p.Down q → Leads p q
  | body {r : RuleId} {name : Text} : Leads (.rule r name) (G.body r)

/-- The parsers whose values a parser hands on.  A negation hands on none. -/
def handsOn : Parser → List Parser
  | .seq _ ps | .choice ps => ps
  | .rep _ p .. | .opt p | .cut p | .filter _ p .. | .log _ p .. => [p]
  | .rule r _ => [G.body r]
  | .terminal .. | .not _ | .map .. | .flatMap .. | .capture _ => []

/-- A parser that makes a value can be reached by going on to what hands its values on. -/
def Bears (p : Parser) : Prop :=
  ∃ q, Relation.ReflTransGen (fun p q => q ∈ G.handsOn p) p q ∧ q.makesValue = true

/-- One step on, but not into the body of a rule that is left out. -/
def Goes (out : RuleId → Prop) (p q : Parser) : Prop :=
  q ∈ G.handsOn p ∧ ∀ r name, p = .rule r name → ¬ out r

/-- A parser that makes a value can be reached without the bodies of some rules. -/
def BearsWithout (out : RuleId → Prop) (p : Parser) : Prop :=
  ∃ q, Relation.ReflTransGen (G.Goes out) p q ∧ q.makesValue = true

open Classical in
/-- Unit parsers are those from which no parser that makes a value can be reached. -/
noncomputable def isUnit (p : Parser) : Bool := decide (¬ G.Bears p)

variable {G}

theorem Has.children {p q : Parser} (h : G.Has p) (hq : q ∈ p.children) : G.Has q := by
  cases h with
  | terminal | rule => cases hq
  | seq hs hp => exact hp q hq
  | choice hp => exact hp q hq
  | rep hp hs =>
    rcases List.mem_cons.mp hq with rfl | hq
    · exact hp
    · obtain rfl := List.mem_singleton.mp hq
      exact hs
  | opt hp | not hp | cut hp | map hp | flatMap hp | filter hp | capture hp | log hp =>
    obtain rfl := List.mem_singleton.mp hq
    exact hp

theorem Has.next {id : Ident} {p q : Parser} {next : Value → Except Fault Parser} {name : Text}
    {v : Value} (h : G.Has (.flatMap id p next name)) (hq : next v = .ok q) : G.Has q := by
  cases h with
  | flatMap _ hn => exact hn v q hq

theorem Has.down {p q : Parser} (h : G.Has p) (hq : p.Down q) : G.Has q := by
  cases hq with
  | child hq => exact h.children hq
  | next hq => exact h.next hq

theorem Has.parts {id : Ident} {ps : List Parser} (h : G.Has (.seq id ps)) :
    G.parts id = some ps := by
  cases h with
  | seq hs _ => exact hs

theorem Has.mem_rules {r : RuleId} {name : Text} (h : G.Has (.rule r name)) : r ∈ G.rules := by
  cases h with
  | rule hr => exact hr

theorem Has.leads {p q : Parser} (h : G.Has p) (hq : G.Leads p q) : G.Has q := by
  cases hq with
  | down hq => exact h.down hq
  | body => exact G.closed _ h.mem_rules

theorem bearsWithout_iff {out : RuleId → Prop} {p : Parser} :
    G.BearsWithout out p ↔ p.makesValue = true ∨
      (∀ r name, p = .rule r name → ¬ out r) ∧ ∃ q ∈ G.handsOn p, G.BearsWithout out q := by
  constructor
  · rintro ⟨q,hr,hq⟩
    rcases Relation.ReflTransGen.cases_head hr with rfl | ⟨x,⟨hx,ho⟩,hr⟩
    · exact Or.inl hq
    · exact Or.inr ⟨ho,x,hx,q,hr,hq⟩
  · rintro (hp | ⟨ho,x,hx,q,hr,hq⟩)
    · exact ⟨p,.refl,hp⟩
    · exact ⟨q,.head ⟨hx,ho⟩ hr,hq⟩

theorem bearsWithout_none_iff {p : Parser} : G.BearsWithout (fun _ => False) p ↔ G.Bears p := by
  have h : G.Goes (fun _ => False) = fun p q => q ∈ G.handsOn p := by
    funext p q
    simp [Goes]
  rw [BearsWithout,Bears,h]

theorem bears_iff {p : Parser} :
    G.Bears p ↔ p.makesValue = true ∨ ∃ q ∈ G.handsOn p, G.Bears q := by
  simp only [← bearsWithout_none_iff]
  rw [bearsWithout_iff]
  simp

theorem bears_of_makesValue {p : Parser} (h : p.makesValue = true) : G.Bears p :=
  bears_iff.mpr (Or.inl h)

theorem Bears.of_handsOn {p q : Parser} (hq : q ∈ G.handsOn p) (h : G.Bears q) : G.Bears p :=
  bears_iff.mpr (Or.inr ⟨q,hq,h⟩)

theorem Bears.rule {r : RuleId} {name : Text} (h : G.Bears (G.body r)) : G.Bears (.rule r name) :=
  h.of_handsOn (List.mem_singleton.mpr rfl)

theorem BearsWithout.mono {out out' : RuleId → Prop} (h : ∀ r, out r → out' r) {p : Parser}
    (hp : G.BearsWithout out' p) : G.BearsWithout out p := by
  obtain ⟨q,hr,hq⟩ := hp
  have hg : ∀ x y, G.Goes out' x y → G.Goes out x y :=
    fun x y ⟨hm,ho⟩ => ⟨hm,fun r name hx hr => ho r name hx (h r hr)⟩
  exact ⟨q,Relation.ReflTransGen.mono hg _ _ hr,hq⟩

theorem BearsWithout.bears {out : RuleId → Prop} {p : Parser} (h : G.BearsWithout out p) :
    G.Bears p :=
  bearsWithout_none_iff.mp (h.mono fun _ => False.elim)

/-- What can be reached at all can be reached without a rule, from where one stands or from the
body of that rule, where it was entered for the last time. -/
theorem BearsWithout.lastVisit {out : RuleId → Prop} (r : RuleId) {p : Parser}
    (h : G.BearsWithout out p) :
    G.BearsWithout (fun s => out s ∨ s = r) p ∨
      G.BearsWithout (fun s => out s ∨ s = r) (G.body r) := by
  obtain ⟨q,hr,hq⟩ := h
  induction hr using Relation.ReflTransGen.head_induction_on with
  | refl => exact Or.inl ⟨q,.refl,hq⟩
  | @head p x hpx _ ih =>
    rcases ih with hx | hb
    · obtain ⟨hm,ho⟩ := hpx
      by_cases hp : ∃ name, p = .rule r name
      · obtain ⟨name,rfl⟩ := hp
        obtain rfl : x = G.body r := by simpa [Grammar.handsOn] using hm
        exact Or.inr hx
      · refine Or.inl (bearsWithout_iff.mpr (Or.inr ⟨?_,x,hm,hx⟩))
        rintro s name rfl (hs | rfl)
        · exact ho s name rfl hs
        · exact hp ⟨name,rfl⟩
    · exact Or.inr hb

/-- To ask about a rule, its body can be asked without that rule. -/
theorem BearsWithout.body {out : RuleId → Prop} {r : RuleId} {name : Text}
    (h : G.BearsWithout out (.rule r name)) :
    G.BearsWithout (fun s => out s ∨ s = r) (G.body r) := by
  rcases h.lastVisit r with hr | hb
  · rcases bearsWithout_iff.mp hr with hm | ⟨ho,-⟩
    · cases hm
    · exact absurd (Or.inr rfl) (ho r name rfl)
  · exact hb

theorem isUnit_eq_true_iff {p : Parser} : G.isUnit p = true ↔ ¬ G.Bears p := by
  simp [isUnit]

theorem isUnit_eq_false_iff {p : Parser} : G.isUnit p = false ↔ G.Bears p := by
  simp [isUnit]

/-- A unit parser makes no value and hands on the values of unit parsers only. -/
theorem isUnit_eq (p : Parser) : G.isUnit p = (!p.makesValue && (G.handsOn p).all G.isUnit) := by
  rw [Bool.eq_iff_iff,isUnit_eq_true_iff,bears_iff]
  simp [isUnit_eq_true_iff]

@[simp] theorem isUnit_terminal (id : Ident) (s : Terminal) : G.isUnit (.terminal id s) = true := by
  rw [isUnit_eq]
  rfl

@[simp] theorem isUnit_seq (id : Ident) (ps : List Parser) :
    G.isUnit (.seq id ps) = ps.all G.isUnit := by
  rw [isUnit_eq]
  rfl

@[simp] theorem isUnit_choice (ps : List Parser) : G.isUnit (.choice ps) = ps.all G.isUnit := by
  rw [isUnit_eq]
  rfl

@[simp] theorem isUnit_rep (id : Ident) (p q : Parser) (least : Quantity) (most : Option Quantity) :
    G.isUnit (.rep id p least most q) = G.isUnit p := by
  rw [isUnit_eq]
  simp [Parser.makesValue,handsOn]

@[simp] theorem isUnit_opt (p : Parser) : G.isUnit (.opt p) = G.isUnit p := by
  rw [isUnit_eq]
  simp [Parser.makesValue,handsOn]

@[simp] theorem isUnit_cut (p : Parser) : G.isUnit (.cut p) = G.isUnit p := by
  rw [isUnit_eq]
  simp [Parser.makesValue,handsOn]

@[simp] theorem isUnit_filter (id : Ident) (p : Parser) (test : Value → Except Fault Bool)
    (name : Text) : G.isUnit (.filter id p test name) = G.isUnit p := by
  rw [isUnit_eq]
  simp [Parser.makesValue,handsOn]

@[simp] theorem isUnit_log (id : Ident) (p : Parser) (name : Text) (hook : Option HookId) :
    G.isUnit (.log id p name hook) = G.isUnit p := by
  rw [isUnit_eq]
  simp [Parser.makesValue,handsOn]

@[simp] theorem isUnit_map (id : Ident) (p : Parser) (f : Value → Except Fault Value) (name : Text) :
    G.isUnit (.map id p f name) = false := by
  rw [isUnit_eq]
  rfl

@[simp] theorem isUnit_capture (p : Parser) : G.isUnit (.capture p) = false := by
  rw [isUnit_eq]
  rfl

theorem isUnit_rule (r : RuleId) (name : Text) : G.isUnit (.rule r name) = G.isUnit (G.body r) := by
  rw [isUnit_eq]
  simp [Parser.makesValue,handsOn]

end Grammar
end Peg
