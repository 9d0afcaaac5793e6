import Peg.Proofs.Loops
import Peg.Proofs.Tracing
import Peg.Proofs.Units

/-! Grammars in use.
A use asks a question about a parser of a grammar or parses with it, however that ends.  Uses leave
only truth remembered, in any order and in any number.  Main statement: after all of them, every
question is answered exactly and everything that is kept is exact. -/
namespace Peg

namespace Grammar

variable {G : Grammar} {w : World} {c : Context} {refusals : RuleId → Nat} {α : Type}

/-- A computation that leaves a settled memory settled, however it ends. -/
def Keeps (G : Grammar) (refusals : RuleId → Nat) (x : Run α) : Prop :=
  ∀ s, G.Settled refusals s.memory → G.Settled refusals (x s).2.memory

theorem Keeps.bind {β : Type} {x : Run α} {f : α → Run β} (hx : G.Keeps refusals x)
    (hf : ∀ a, G.Keeps refusals (f a)) : G.Keeps refusals (x >>= f) := by
  intro s hs
  have hs' := hx s hs
  rw [Run.bind_apply]
  rcases h : x s with ⟨a | fault | _,u⟩
  · rw [h] at hs'
    exact hf a u hs'
  · rw [h] at hs'
    exact hs'
  · rw [h] at hs'
    exact hs'

theorem Keeps.done (a : α) : G.Keeps refusals (pure a) := fun _ hs => hs

theorem keeps_closed : Parsing.Closed fun (α : Type) (x : Run α) => G.Keeps refusals x where
  done := .done
  bind := .bind
  raise _ := fun _ hs => hs
  exhaust := fun _ hs => hs

theorem Keeps.asks {enough : Prop} {Q : List Frame → α → Prop} {x : Run α}
    (h : G.Asks w refusals [] enough Q x) : G.Keeps refusals x :=
  fun _ hs => (h.settled hs).1

/-- What goes on with the body of a rule only ever goes on with that body. -/
theorem Keeps.body (hw : G.Supplied w refusals) {r : RuleId} (hr : r ∈ G.rules)
    {f : Parser → Run α} (hf : G.Keeps refusals (f (G.body r))) :
    G.Keeps refusals (Rules.body w r >>= f) := by
  intro s hs
  obtain ⟨hs',ha⟩ := Asks.settled (body_asks hw hr : G.Asks w refusals [] True _ _) hs
  rw [Run.bind_apply]
  rcases hb : Rules.body w r s with ⟨q | fault | _,u⟩
  · rw [hb] at hs' ha
    obtain rfl : q = G.body r := ha
    exact hf u hs'
  · rw [hb] at hs'
    exact hs'
  · rw [hb] at hs'
    exact hs'

theorem Keeps.map {β : Type} {x : Run α} (h : G.Keeps refusals x) (f : α → β) :
    G.Keeps refusals (f <$> x) := by
  intro s hs
  rw [Run.map_apply]
  exact h s hs

theorem Keeps.traced {outcome : α → Outcome} {x : Run α} (h : G.Keeps refusals x) (hook : HookId)
    (name : Text) (i : Int) : G.Keeps refusals (Hooks.traced outcome w c hook name i x) := by
  intro s hs
  cases Hooks.traced_traces w c hook name outcome i x s with
  | hidden _ hr =>
    rw [hr]
    exact h s hs
  | stopped _ _ _ hr =>
    rw [hr]
    exact hs
  | @heard u _ _ _ _ hu _ _ hm =>
    rw [hm]
    exact h u (hu ▸ hs)

theorem Keeps.logged {outcome : α → Outcome} {x : Run α} (h : G.Keeps refusals x)
    (own : Option HookId) (name : Text) (i : Int) :
    G.Keeps refusals (Hooks.logged outcome w c own name i x) :=
  fun s hs => h.traced (Hooks.chosen w own c.hook s.tracing.calls) name i s hs

theorem run_keeps (hw : G.Supplied w refusals) (n : Nat) {p : Parser} (hp : G.Has p) (i : Int) :
    G.Keeps refusals (Parsing.run w c n p i) := by
  have hP : Parsing.Closed fun (α : Type) (x : Run α) => G.Keeps refusals x := keeps_closed
  induction n generalizing p i with
  | zero => exact fun s hs => hs
  | succ n ih =>
    refine hP.node c.text p i (fun q hq j => ih (hp.children hq) j) ?_ ?_ ?_ ?_
    · rintro id body next name v q rfl hq j
      exact ih (hp.next hq) j
    · rintro id parts rfl
      exact .asks (parts_asks hw hp)
    · rintro r name rfl
      refine .body hw hp.mem_rules ?_
      cases c.tracesRules with
      | some hook => exact (ih (G.closed r hp.mem_rules) i).traced hook name i
      | none => exact ih (G.closed r hp.mem_rules) i
    · rintro id body name hook rfl
      exact (ih (hp.children (by simp [Parser.children])) i).logged hook name i

/-- One use of a parser: asking whether it is a unit parser, or parsing a text with it. -/
inductive Use
  | unit (limit : Nat) (p : Parser)
  | parse (limit : Nat) (p : Parser) (t : Text) (i : Int) (hook : Option HookId)
    (config : Option Config)

namespace Use

def parser : Use → Parser
  | unit _ p => p
  | parse _ p .. => p

/-- The state after a use. -/
def perform (w : World) (s : State) : Use → State
  | unit limit p => (Rules.isUnit w limit p s).2
  | parse limit p t i hook config => (Parsing.parse w limit p t i hook config s).2

end Use

theorem perform_settled (hw : G.Supplied w refusals) {x : Use} (hx : G.Has x.parser) {s : State}
    (hs : G.Settled refusals s.memory) : G.Settled refusals (x.perform w s).memory := by
  cases x with
  | unit limit p => exact ((isUnit_asks hw hx).settled hs).1
  | parse limit p t i hook config => exact run_keeps hw limit hx i (s.setDepth 0) hs

theorem performAll_settled (hw : G.Supplied w refusals) {xs : List Use}
    (hx : ∀ x ∈ xs, G.Has x.parser) {s : State} (hs : G.Settled refusals s.memory) :
    G.Settled refusals (xs.foldl (Use.perform w) s).memory := by
  induction xs generalizing s with
  | nil => exact hs
  | cons x xs ih => exact ih (fun y hy => hx y (by simp [hy])) (perform_settled hw (hx x (by simp)) hs)

/-- A parser over a grammar whose suppliers succeed can be asked about after any uses: the answer
is the truth, as is everything that was kept before and is kept then. -/
theorem isUnit_after_uses (hw : ∀ r ∈ G.rules, w.supply r 0 = .ok (G.body r)) {p : Parser}
    (hp : G.Has p) :
    ∃ deep, ∀ limit ≥ deep, ∀ xs : List Use, (∀ x ∈ xs, G.Has x.parser) →
      ∀ s, s.memory = {} →
        G.Exact (xs.foldl (Use.perform w) s).memory ∧
          ∃ s', Rules.isUnit w limit p (xs.foldl (Use.perform w) s) = (.value (G.isUnit p),s') ∧
            G.Exact s'.memory := by
  have hw' : G.Supplied w fun _ => 0 := fun r hr => ⟨by simp,hw r hr⟩
  refine ⟨p.size + G.weight * G.pending [],fun limit hl xs hx s hm => ?_⟩
  have hs : G.Settled (fun _ => 0) (xs.foldl (Use.perform w) s).memory :=
    performAll_settled hw' hx (hm ▸ settled_new G _)
  obtain ⟨s',ha,hs'⟩ := isUnit_exact hw' hp hl hs
  exact ⟨hs.exact,s',ha,hs'.exact⟩

/-- A text, or the same in brackets: two rules that refer to each other. -/
def bracketed : Grammar where
  rules := [.named "value",.named "brackets"]
  body
    | .named "brackets" => .seq (.named "brackets body")
      [.word (.named "open") "[".toList,.rule (.named "value") "value".toList,
        .word (.named "close") "]".toList]
    | _ => .choice [.rule (.named "brackets") "brackets".toList,
      .capture (.word (.named "letter") "a".toList)]
  parts
    | .named "brackets body" => some
      [.word (.named "open") "[".toList,.rule (.named "value") "value".toList,
        .word (.named "close") "]".toList]
    | _ => none
  closed := by
    simp only [List.mem_cons,List.not_mem_nil,or_false,forall_eq_or_imp,forall_eq]
    refine ⟨.choice ?_,.seq rfl ?_⟩
    · simp only [List.mem_cons,List.not_mem_nil,or_false,forall_eq_or_imp,forall_eq]
      exact ⟨.rule (by simp),.capture .terminal⟩
    · simp only [List.mem_cons,List.not_mem_nil,or_false,forall_eq_or_imp,forall_eq]
      exact ⟨.terminal,.rule (by simp),.terminal⟩

theorem bears_brackets : bracketed.Bears (.rule (.named "brackets") "brackets".toList) := by
  have hl : bracketed.Bears (.capture (.word (.named "letter") "a".toList)) :=
    bears_of_makesValue rfl
  have hv : bracketed.Bears (.rule (.named "value") "value".toList) :=
    .rule (hl.of_handsOn (by simp [handsOn,bracketed]))
  exact .rule (hv.of_handsOn (by simp [handsOn,bracketed]))

/-- Asking about the inner rule after the outer one, which relied on it. -/
theorem brackets_not_unit :
    let w : World := ⟨fun r _ => .ok (bracketed.body r),fun _ => .recording none,fun _ => 0⟩
    let value : Parser := .rule (.named "value") "value".toList
    let brackets : Parser := .rule (.named "brackets") "brackets".toList
    ∃ deep, ∀ limit ≥ deep,
      ∃ s', Rules.isUnit w limit brackets
        ([.unit 9 value,.parse 9 brackets "[a".toList 0 none none].foldl (Use.perform w) {}) =
          (.value false,s') := by
  intro w value brackets
  obtain ⟨deep,h⟩ := isUnit_after_uses (G := bracketed) (w := w) (fun _ _ => rfl)
    (p := brackets) (.rule (by simp [bracketed]))
  refine ⟨deep,fun limit hl => ?_⟩
  obtain ⟨-,s',ha,-⟩ := h limit hl [.unit 9 value,.parse 9 brackets "[a".toList 0 none none]
    (by
      simp only [List.mem_cons,List.not_mem_nil,or_false,forall_eq_or_imp,forall_eq]
      exact ⟨.rule (by simp [bracketed]),.rule (by simp [bracketed])⟩) {} rfl
  exact ⟨s',by rw [ha,isUnit_eq_false_iff.mpr bears_brackets]⟩

end Grammar
end Peg
