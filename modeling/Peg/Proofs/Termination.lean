import Peg.Proofs.Arithmetic
import Peg.Proofs.Bounds
import Peg.Proofs.Deepening
import Peg.Proofs.Recursion

/-! Parsing without left recursion.
What is run in turn is further on in the text, or lies lower among the rules, or is smaller.  Main
statements: over a grammar whose rules are ranked every parse ends, with an outcome or with what a
function or a hook raises; and where nobody raises anything it ends with an outcome. -/
namespace Peg

open Relation

namespace Leveled

variable {α β : Type} {E : Fault → Prop}

/-- At every level that is high enough there is the same answer: a value like this, or a fault like
this. -/
def Halts (E : Fault → Prop) (x : Leveled α) (Q : α → Prop) : Prop :=
  ∃ a, (∃ deep, ∀ n ≥ deep, x n = a) ∧ a.Meets Q E False

theorem Halts.imp {x : Leveled α} {P Q : α → Prop} (h : Halts E x P) (hPQ : ∀ a, P a → Q a) :
    Halts E x Q := by
  obtain ⟨a,ha,hP⟩ := h
  refine ⟨a,ha,?_⟩
  cases a with
  | value a => exact hPQ a hP
  | raised fault => exact hP
  | exhausted => exact hP

theorem Halts.bind {x : Leveled α} {f : α → Leveled β} {P : α → Prop} {Q : β → Prop}
    (hx : Halts E x P) (hf : ∀ a, P a → Halts E (f a) Q) : Halts E (x >>= f) Q := by
  obtain ⟨a,⟨deep,ha⟩,hP⟩ := hx
  have hstep (n : Nat) (hn : n ≥ deep) : (x >>= f) n = a >>= fun a => f a n :=
    congrArg (· >>= fun a => f a n) (ha n hn)
  cases a with
  | value a =>
    obtain ⟨b,⟨deep',hb⟩,hQ⟩ := hf a hP
    refine ⟨b,⟨max deep deep',fun n hn => ?_⟩,hQ⟩
    rw [hstep n (by omega)]
    exact hb n (by omega)
  | raised fault => exact ⟨.raised fault,⟨deep,fun n hn => hstep n hn⟩,hP⟩
  | exhausted => exact hP.elim

theorem halts_logic (E : Fault → Prop) :
    Parsing.Logic E fun (α : Type) (x : Leveled α) Q => Halts E x Q where
  done hQ := ⟨_,⟨0,fun _ _ => rfl⟩,hQ⟩
  imp := Halts.imp
  bind := Halts.bind
  raise hE := ⟨_,⟨0,fun _ _ => rfl⟩,hE⟩

theorem Halts.succ {x : Leveled α} {Q : α → Prop} (h : Halts E (fun n => x (n + 1)) Q) :
    Halts E x Q := by
  obtain ⟨a,⟨deep,ha⟩,hQ⟩ := h
  refine ⟨a,⟨deep + 1,fun n hn => ?_⟩,hQ⟩
  obtain ⟨m,rfl⟩ := Nat.exists_eq_add_of_le' hn
  exact ha (m + deep) (by omega)

end Leveled

namespace Grammar

variable {G : Grammar} {empty : Parser → Prop} {E : Fault → Prop} {t : Text} {p q : Parser}
  {i : Int} {r s : RuleId}

/-- At one position a parser ends, if all do further on, and there those rules that it can come
to. -/
theorem halts_here (hE : G.Conservative empty)
    (hlater : ∀ q, G.Has q → q.Admits G.Leads E t i → ∀ j, i < j → t.Reaches False i j →
      Leveled.Halts E (fun n => G.eval t n q j) (q.Lands empty t False j))
    (hp : G.Has p) (hadmits : p.Admits G.Leads E t i)
    (hrules : ∀ r name, ReflTransGen (Parser.Enters empty) p (.rule r name) →
      (G.body r).Admits G.Leads E t i →
        Leveled.Halts E (fun n => G.eval t n (G.body r) i) ((G.body r).Lands empty t False i)) :
    Leveled.Halts E (fun n => G.eval t n p i) (p.Lands empty t False i) := by
  have hH := Leveled.halts_logic E
  revert hadmits hrules
  refine Parser.Over.downward ?_ (hp : p.Over G.rules G.parts)
  intro p hp ih hadmits hrules
  have hp : G.Has p := hp
  have hstep {q : Parser} (hq : p.Down q) : q.Admits G.Leads E t i :=
    hadmits.lead (.down hq) (Int.le_refl i)
  have hin (q : Parser) (hq : p.Enters empty q) :
      Leveled.Halts E (fun n => G.eval t n q i) (q.Lands empty t False i) :=
    ih q hq.down (hstep hq.down) fun r name hr => hrules r name (.head hq hr)
  refine .succ ?_
  rw [← funext (eval_succ t p i)]
  refine hH.node hE.toConservative p False.elim ?_ (fun fault hf => hadmits.raise .refl hf) hin
    (fun q hq j hj hr => hlater q (hp.down hq) (hstep hq) j hj hr) ?_ ?_ ?_
  · rintro id s fault rfl hf
    exact hadmits.scan .refl (Int.le_refl i) hf
  · rintro id parts rfl
    exact hH.done (.inl (List.map_fst_zip (by simp)))
  · rintro r name rfl
    refine (hrules r name .refl (hadmits.lead .body (Int.le_refl i))).imp fun o ho => ?_
    exact ⟨ho.reaches,fun v c hv => hE.rule hp.mem_rules (ho.empty v c hv)⟩
  · rintro id body name hook rfl
    refine (hin body (.body rfl)).imp fun o ho => ?_
    exact ⟨ho.reaches,fun v c hv => hE.log (ho.empty v c hv)⟩

/-- Without left recursion every parser over a grammar ends everywhere. -/
theorem halts (hE : G.Conservative empty) (hwf : WellFounded (G.Recurs empty)) (hp : G.Has p)
    (hadmits : p.Admits G.Leads E t i) :
    Leveled.Halts E (fun n => G.eval t n p i) (p.Lands empty t False i) := by
  induction hm : (t.length + 1 - i).toNat using Nat.strong_induction_on generalizing i p with
  | _ m ih =>
    have hlater (q : Parser) (hq : G.Has q) (hadmits : q.Admits G.Leads E t i) (j : Int)
        (hj : i < j) (hr : t.Reaches False i j) :
        Leveled.Halts E (fun n => G.eval t n q j) (q.Lands empty t False j) := by
      -- Past the end nothing is further on.
      have hi : ¬ t.length < i := fun hi => by
        have := hr.past hi
        omega
      refine ih _ (by omega) hq ?_ rfl
      exact ⟨hadmits.raise,fun hs hk => hadmits.scan hs (by omega)⟩
    have hrules (r : RuleId) (hr : r ∈ G.rules) (hadmits : (G.body r).Admits G.Leads E t i) :
        Leveled.Halts E (fun n => G.eval t n (G.body r) i) ((G.body r).Lands empty t False i) := by
      induction r using hwf.induction with
      | h r ihr =>
        refine halts_here hE hlater (G.closed r hr) hadmits fun s name hs ha => ?_
        have hrec : G.Recurs empty s r := ⟨hr,name,hs⟩
        exact ihr s hrec hrec.mem_rules ha
    exact halts_here hE hlater hp hadmits fun r name hr ha => hrules r (hp.entered hr).mem_rules ha

section Persisting

variable {w : World} {c : Context} {refusals : RuleId → Nat} {α β : Type}

/-- An end in a settled memory, with this answer or with what a hook raises or a supplier that
refuses. -/
inductive Comes (G : Grammar) (w : World) (refusals : RuleId → Nat) (a : Answer α) :
    Answer α × State → Prop
  | answered {s : State} : G.Settled refusals s.memory → Comes G w refusals a (a,s)
  | barred {fault : Fault} {s : State} : w.HookRaises fault ∨ G.Refused w refusals fault →
    G.Settled refusals s.memory → Comes G w refusals a (.raised fault,s)

/-- From every settled memory a computation that is nested deep enough gives this answer, unless a
hook raises or a supplier that refuses. -/
def Persists (G : Grammar) (w : World) (refusals : RuleId → Nat) (x : Nested α) (a : Answer α) :
    Prop :=
  ∃ deep, ∀ n ≥ deep, ∀ s, G.Settled refusals s.memory → G.Comes w refusals a (x n s)

theorem Persists.succ {x : Nested α} {a : Answer α}
    (h : G.Persists w refusals (fun n => x (n + 1)) a) : G.Persists w refusals x a := by
  obtain ⟨deep,h⟩ := h
  refine ⟨deep + 1,fun n hn => ?_⟩
  obtain ⟨m,rfl⟩ := Nat.exists_eq_add_of_le' hn
  exact h (m + deep) (by omega)

theorem Persists.bind {x : Nested α} {f : α → Nested β} {a : α} {b : Answer β}
    (hx : G.Persists w refusals x (.value a)) (hf : G.Persists w refusals (f a) b) :
    G.Persists w refusals (x >>= f) b := by
  obtain ⟨deep,hx⟩ := hx
  obtain ⟨deep',hf⟩ := hf
  refine ⟨max deep deep',fun n hn s hs => ?_⟩
  change G.Comes w refusals b ((x n >>= fun a => f a n) s)
  have hu := hx n (by omega) s hs
  generalize hr : x n s = r at hu
  cases hu with
  | answered hu => exact Run.bind_of_value hr ▸ hf n (by omega) _ hu
  | barred hfault hu => exact Run.bind_of_raised hr ▸ .barred hfault hu

theorem Persists.bind_raised {x : Nested α} {f : α → Nested β} {fault : Fault}
    (hx : G.Persists w refusals x (.raised fault)) :
    G.Persists w refusals (x >>= f) (.raised fault) := by
  obtain ⟨deep,hx⟩ := hx
  refine ⟨deep,fun n hn s hs => ?_⟩
  change G.Comes w refusals _ ((x n >>= fun a => f a n) s)
  have hu := hx n hn s hs
  generalize hr : x n s = r at hu
  cases hu with
  | answered hu => exact Run.bind_of_raised hr ▸ .answered hu
  | barred hfault hu => exact Run.bind_of_raised hr ▸ .barred hfault hu

/-- Persisting in every answer but the missing one is kept by composing. -/
theorem persists_congruence (G : Grammar) (w : World) (refusals : RuleId → Nat) :
    Parsing.Congruence fun (α : Type) (x : Nested α) (a : Answer α) =>
      a ≠ .exhausted → G.Persists w refusals x a where
  done a _ := ⟨0,fun _ _ _ hs => .answered hs⟩
  bind := by
    intro α β x a f g hx hf hne
    cases a with
    | value a => exact (hx (by simp)).bind (hf a hne)
    | raised fault => exact (hx (by simp)).bind_raised
    | exhausted => exact absurd rfl hne
  raise fault _ := ⟨0,fun _ _ _ hs => .answered hs⟩
  exhaust h := absurd rfl h

theorem Comes.settled {a : Answer α} {r : Answer α × State} (h : G.Comes w refusals a r) :
    G.Settled refusals r.2.memory := by
  cases h with
  | answered hs => exact hs
  | barred _ hs => exact hs

theorem Comes.alike {a : Answer α} {r r' : Answer α × State} (h : G.Comes w refusals a r)
    (ha : r'.1 = r.1) (hm : r'.2.memory = r.2.memory) : G.Comes w refusals a r' := by
  obtain ⟨b,s⟩ := r
  obtain ⟨b',s'⟩ := r'
  obtain rfl : b' = b := ha
  cases h with
  | answered hs => exact .answered (hm ▸ hs)
  | barred hf hs => exact .barred hf (hm ▸ hs)

/-- A traced node comes to what the node comes to, whatever its hook is. -/
theorem Comes.traced {x : Run Outcome} {a : Answer Outcome}
    (h : ∀ s, G.Settled refusals s.memory → G.Comes w refusals a (x s)) (hook : HookId) (name : Text)
    (i : Int) {s : State} (hs : G.Settled refusals s.memory) :
    G.Comes w refusals a (Hooks.traced id w c hook name i x s) := by
  cases Hooks.traced_traces w c hook name id i x s with
  | hidden _ hr =>
    rw [hr]
    exact h s hs
  | stopped _ hf ha hu =>
    have hraise : w.HookRaises _ := ⟨_,_,_,Hook.fault?_of_reply hf⟩
    exact .alike (.barred (.inl hraise) hs) ha hu
  | @heard u _ _ _ _ hum _ ha hm =>
    have hx := h u (hum ▸ hs)
    rcases Answer.heard_cases _ (x u).1 with he | ⟨fault,hf,he⟩
    · exact hx.alike (ha.trans he) hm
    · exact .alike (.barred (.inl (Hooks.told_eq_some w hf)) hx.settled) (ha.trans he) hm

theorem Persists.traced {x : Nested Outcome} {a : Answer Outcome} (h : G.Persists w refusals x a)
    (hook : HookId) (name : Text) (i : Int) :
    G.Persists w refusals (fun n => Hooks.traced id w c hook name i (x n)) a :=
  h.imp fun _ h n hn _ => .traced (h n hn) hook name i

theorem Persists.logged {x : Nested Outcome} {a : Answer Outcome} (h : G.Persists w refusals x a)
    (own : Option HookId) (name : Text) (i : Int) :
    G.Persists w refusals (fun n => Hooks.logged id w c own name i (x n)) a :=
  h.imp fun _ h n hn s => .traced (h n hn) (Hooks.chosen w own c.hook s.tracing.calls) name i

/-- A question that is answered in one way only persists in that answer. -/
theorem Asks.persists {x : Nested α} {Q : List Frame → α → Prop} {d : Nat} {a : α}
    (h : ∀ n, G.Asks w refusals [] (d ≤ n) Q (x n)) (hQ : ∀ b, Q [] b → b = a) :
    G.Persists w refusals x (.value a) := by
  refine ⟨d,fun n hn s hs => ?_⟩
  obtain ⟨hs',ha⟩ := (h n).settled hs
  generalize x n s = r at hs' ha
  obtain ⟨b | fault | _,u⟩ := r
  · exact hQ b ha ▸ .answered hs'
  · exact .barred (.inr ha) hs'
  · exact absurd hn ha

/-- What a parser means at some depth, a run persists in. -/
theorem run_persists (hw : G.Supplied w refusals) (n : Nat) (hp : G.Has p)
    (h : G.eval c.text n p i ≠ .exhausted) :
    G.Persists w refusals (fun m => Parsing.run w c m p i) (G.eval c.text n p i) := by
  have hR := persists_congruence G w refusals
  induction n generalizing p i with
  | zero => exact absurd rfl h
  | succ n ih =>
    have hn : G.Persists w refusals (Parsing.node (Parsing.nestedSurroundings w c) c.text
        (fun q j m => Parsing.run w c m q j) p i) (G.eval c.text (n + 1) p i) := by
      refine hR.node c.text p i (fun q hq j => ih (hp.children hq)) ?_ ?_ ?_ ?_ h
      · rintro id body next name v q rfl hq j
        exact ih (hp.next hq)
      · rintro id parts rfl -
        exact Asks.persists (fun m => parts_asks hw hp) fun us hus => forall₂_exact hus
      · rintro r name rfl hne
        have hb := ih (G.closed r hp.mem_rules) hne
        have hbody : G.Persists w refusals (fun _ => Rules.body w r) (.value (G.body r)) :=
          Asks.persists (d := 0) (fun _ => body_asks hw hp.mem_rules) fun q hq => hq
        refine hbody.bind ?_
        cases ht : c.tracesRules with
        | some hook => exact hb.traced hook name i
        | none => exact hb
      · rintro id body name hook rfl hne
        exact (ih (hp.children (by simp [Parser.children])) hne).logged hook name i
    refine Persists.succ ?_
    rwa [funext (Parsing.run_succ w c p i)] at hn

end Persisting

/-- What a parser comes to at every depth that is large enough a parse comes to as well, unless a
hook raises or a supplier that refuses. -/
theorem parse_of_halts {w : World} {refusals : RuleId → Nat} (hw : G.Supplied w refusals)
    (hp : G.Has p) {Q : Outcome → Prop} (h : Leveled.Halts E (fun n => G.eval t n p i) Q)
    (hook : Option HookId) (config : Option Config) {s : State} (hs : G.Settled refusals s.memory) :
    ∃ a, (∃ deep, ∀ limit ≥ deep, (Parsing.parse w limit p t i hook config s).1 = a) ∧
      a.Meets Q (fun fault => E fault ∨ w.HookRaises fault ∨ G.Refused w refusals fault) False := by
  obtain ⟨a,⟨n,ha⟩,hQ⟩ := h
  have hn : G.eval t n p i = a := ha n (Nat.le_refl n)
  have hne : G.eval t n p i ≠ .exhausted := by
    rintro he
    obtain rfl := hn.symm.trans he
    exact hQ
  obtain ⟨deep,hrun⟩ := run_persists
    (c := ⟨t,hook.or s.ambientHook,config.or s.ambientConfig⟩) hw n hp hne
  have hr := hrun deep (Nat.le_refl deep) (s.setDepth 0) hs
  change G.Comes w refusals _ (Parsing.parse w deep p t i hook config s) at hr
  rw [hn] at hr
  have hend : (Parsing.parse w deep p t i hook config s).1.Meets Q
      (fun fault => E fault ∨ w.HookRaises fault ∨ G.Refused w refusals fault) False := by
    generalize Parsing.parse w deep p t i hook config s = r at hr
    cases hr with
    | answered =>
      cases a with
      | value o => exact hQ
      | raised fault => exact .inl hQ
      | exhausted => exact hQ.elim
    | barred hf => exact .inr hf
  refine ⟨_,⟨deep,fun limit hl => ?_⟩,hend⟩
  -- the depth at which the parse ends first settles how it ends at all greater ones
  refine congrArg Prod.fst (Parsing.run_finishes w _ hl p i (s.setDepth 0) fun he => ?_)
  have hpe : (Parsing.parse w deep p t i hook config s).1 = .exhausted := he
  rw [hpe] at hend
  exact hend

/-- Over a grammar whose rules are ranked, so that a body comes only to rules of a lower rank before
anything has to be consumed, a parse ends at every depth that is large enough.  Unless it starts
before the first character, it raises only what a function raises that it can reach, or a hook, or
a supplier that refuses at first. -/
theorem parse_terminates {w : World} {refusals : RuleId → Nat} (hw : G.Supplied w refusals)
    (hE : G.Conservative empty) (rank : RuleId → Nat)
    (hrank : ∀ r ∈ G.rules, ∀ s name,
      ReflTransGen (Parser.Enters empty) (G.body r) (.rule s name) → rank s < rank r)
    (hp : G.Has p) (t : Text) (i : Int) (hook : Option HookId) (config : Option Config) {s : State}
    (hs : G.Settled refusals s.memory) :
    ∃ a, (∃ deep, ∀ limit ≥ deep, (Parsing.parse w limit p t i hook config s).1 = a) ∧
      a ≠ .exhausted ∧ ∀ fault, a = .raised fault → -t.length ≤ i →
        (∃ q, ReflTransGen G.Leads p q ∧ q.Raises fault) ∨
          w.HookRaises fault ∨ G.Refused w refusals fault := by
  have hadmits := Parser.admits_raises G.Leads t p i
  obtain ⟨a,ha,hQ⟩ := parse_of_halts hw hp (halts hE (wellFounded_of_rank rank hrank) hp hadmits) hook
    config hs
  refine ⟨a,ha,?_,?_⟩
  · rintro rfl
    exact hQ
  · rintro fault rfl hi
    exact hQ.imp_left fun hf => hf hi

/-- Sums are made of products, and products of what stands in parentheses. -/
def arithmeticRank : RuleId → Nat
  | .named "arithmetic.sums" => 2
  | .named "arithmetic.products" => 1
  | _ => 0

open Samples in
/-- A text that asks for a quotient by zero ends as well; it is a function that raises that. -/
theorem parse_arithmetic_terminates :
    ∃ a, (∃ deep, ∀ limit ≥ deep, (Parsing.parse (world none) limit Arithmetic.expression
        "7/(1-1)*2".toList 0 none none {}).1 = a) ∧
      a ≠ .exhausted ∧ ∀ fault, a = .raised fault →
        ∃ q, ReflTransGen Arithmetic.grammar.Leads Arithmetic.expression q ∧ q.Raises fault := by
  have hempty : ∀ r ∈ Arithmetic.grammar.rules,
      (Arithmetic.grammar.body r).mayBeEmpty (fun _ => false) = true → false = true := by decide
  have hstart : ∀ r ∈ Arithmetic.grammar.rules, (Arithmetic.grammar.body r).startsWith
      (fun _ => false) (fun s => arithmeticRank s < arithmeticRank r) = true := by decide
  obtain ⟨a,ha,hne,hraised⟩ := parse_terminates (s := {}) Arithmetic.supplied
    (conservative_mayBeEmpty hempty) arithmeticRank (rank_of_startsWith hstart)
    Arithmetic.has_expression "7/(1-1)*2".toList 0 none none (settled_new Arithmetic.grammar _)
  refine ⟨a,ha,hne,fun fault hf => (hraised fault hf (by decide)).resolve_right ?_⟩
  rintro (⟨hook,before,call,hh⟩ | ⟨r,-,k,hk,-⟩)
  · rw [Arithmetic.calm hook before call] at hh
    cases hh
  · cases hk

/-- If no function or supplier raises anything, and hooks do at most when they are told of an error,
then a parse that starts no further back than the first character raises nothing at any depth; and
over a grammar without left recursion it gives an outcome at every depth that is large enough. -/
theorem parse_safe {w : World} (hsupply : ∀ r n fault, w.supply r n ≠ .error fault)
    (hhooks : ∀ hook, (w.hook hook).CalmUnlessError)
    (hraise : ∀ q, ReflTransGen w.Leads p q → ∀ fault, ¬ q.Raises fault) (hi : -t.length ≤ i)
    (hook : Option HookId) (config : Option Config) {s : State} (hs : s.memory.Supplied w) :
    (∀ limit fault, (Parsing.parse w limit p t i hook config s).1 ≠ .raised fault) ∧
      ∀ (G : Grammar) (empty : Parser → Prop), (∀ r ∈ G.rules, w.supply r 0 = .ok (G.body r)) →
        G.Has p → G.Settled (fun _ => 0) s.memory → G.Conservative empty →
        (∀ r ∈ G.rules, ¬ TransGen (G.Recurs empty) r r) →
          ∃ o deep, ∀ limit ≥ deep, (Parsing.parse w limit p t i hook config s).1 = .value o := by
  have hsafe (limit : Nat) (fault : Fault) :
      (Parsing.parse w limit p t i hook config s).1 ≠ .raised fault := by
    have hhook : w.HooksKeep fun _ => False := by
      intro hook before call fault hf herror
      refine absurd (hhooks hook before call fun he => ?_) (by simp [hf])
      exact (herror he).elim fun _ h => h
    have hadmits : p.Admits w.Leads (fun _ => False) t i :=
      (Parser.admits_raises w.Leads t p i).imp fun fault h =>
        let ⟨q,hq,hf⟩ := h hi
        hraise q hq fault hf
    obtain ⟨-,ha⟩ := Parsing.run_lands
      (c := ⟨t,hook.or s.ambientHook,config.or s.ambientConfig⟩) hsupply hhook limit
      (fun h : False => h.elim) hadmits (s.setDepth 0) hs
    change (Parsing.parse w limit p t i hook config s).1.Meets _ _ _ at ha
    intro h
    rwa [h] at ha
  refine ⟨hsafe,fun G empty hw hp hm hE hacyclic => ?_⟩
  have hadmits := Parser.admits_raises G.Leads t p i
  have hw' : G.Supplied w fun _ => 0 := fun r hr => ⟨by simp,hw r hr⟩
  obtain ⟨a,⟨deep,ha⟩,hQ⟩ :=
    parse_of_halts hw' hp (halts hE (wellFounded_of_acyclic hacyclic) hp hadmits) hook config hm
  cases a with
  | value o => exact ⟨o,deep,ha⟩
  | raised fault => exact absurd (ha deep (Nat.le_refl deep)) (hsafe deep fault)
  | exhausted => exact hQ.elim

/-- A text is brackets or not; brackets begin with one. -/
def bracketedRank : RuleId → Nat
  | .named "value" => 1
  | _ => 0

theorem bracketed_raises_nothing {hook : HookId → Hook} {clock : Nat → Rat} {q : Parser}
    {fault : Fault} (hq : ReflTransGen (World.Leads ⟨fun r _ => .ok (bracketed.body r),hook,clock⟩)
      (.rule (.named "brackets") "brackets".toList) q) : ¬ q.Raises fault := by
  have hmem : q ∈ [bracketed.body (.named "value"),bracketed.body (.named "brackets"),
      .rule (.named "value") "value".toList,.rule (.named "brackets") "brackets".toList,
      .word (.named "open") "[".toList,.word (.named "close") "]".toList,
      .capture (.word (.named "letter") "a".toList),.word (.named "letter") "a".toList] := by
    refine World.reached_of_closed _ (by simp) (fun x y hx hl => ?_) hq
    simp only [List.mem_cons,List.not_mem_nil,or_false] at hx
    rcases hx with rfl | rfl | rfl | rfl | rfl | rfl | rfl | rfl
    all_goals cases hl
    all_goals simp_all [Parser.children,bracketed,Parser.word]
    all_goals grind
  simp only [List.mem_cons,List.not_mem_nil,or_false] at hmem
  rcases hmem with rfl | rfl | rfl | rfl | rfl | rfl | rfl | rfl
  all_goals exact id

/-- Also from past the end of the text, and whatever it is told of. -/
theorem parse_brackets_safe :
    let hook : HookId → Hook := fun _ => HookKind.hook (some 4300) (.lines "  ".toList true)
    let w : World := ⟨fun r _ => .ok (bracketed.body r),hook,fun _ => 0⟩
    let brackets : Parser := .rule (.named "brackets") "brackets".toList
    ∃ o deep, ∀ limit ≥ deep,
      (Parsing.parse w limit brackets "[a]".toList 5 (some .standard) none {}).1 = .value o := by
  intro hook w brackets
  have hempty : ∀ r ∈ bracketed.rules,
      (bracketed.body r).mayBeEmpty (fun _ => false) = true → false = true := by decide
  have hstart : ∀ r ∈ bracketed.rules, (bracketed.body r).startsWith (fun _ => false)
      (fun s => bracketedRank s < bracketedRank r) = true := by decide
  have hwf := wellFounded_of_rank bracketedRank (rank_of_startsWith hstart)
  have hsafe := parse_safe (w := w) (s := {}) (t := "[a]".toList) (i := 5) nofun
    (fun _ => HookKind.calmUnlessError (.lines _ _) _ nofun)
    (fun _ hq _ => bracketed_raises_nothing hq) (by decide) (some .standard) none
    (Memory.supplied_new w)
  exact hsafe.2 bracketed _ (fun _ _ => rfl) (.rule (by simp [bracketed])) (settled_new bracketed _)
    (conservative_mayBeEmpty hempty) fun r _ h => hwf.transGen.asymmetric r r h h

end Grammar
end Peg
