import Peg.Proofs.Meaning

/-! Values without data.
A unit parser hands on only what terminals, negations and empty sequences give, wrapped in lists by
repetitions.  Main statement: whatever a parser that answers to be a unit parser ends with holds no
data, so that a sequence that leaves its value out loses none. -/
namespace Peg

namespace Value

/-- A value that holds no data: nothing, or a list of such values. -/
inductive Hollow : Value → Prop
  | none : Hollow .none
  | list {vs : List Value} : (∀ v ∈ vs, Hollow v) → Hollow (.list vs)

/-- A value that is another one or stands somewhere in it. -/
inductive Within (u : Value) : Value → Prop
  | here : Within u u
  | list {v : Value} {vs : List Value} : v ∈ vs → Within u v → Within u (.list vs)
  | tuple {v : Value} {vs : List Value} : v ∈ vs → Within u v → Within u (.tuple vs)
  | dict {e : Text × Value} {es : List (Text × Value)} : e ∈ es → Within u e.2 → Within u (.dict es)

theorem Hollow.within {u v : Value} (h : u.Within v) (hv : v.Hollow) : u.Hollow := by
  induction h with
  | here => exact hv
  | list hm _ ih =>
    cases hv with
    | list hvs => exact ih (hvs _ hm)
  | tuple => cases hv
  | dict => cases hv

end Value

namespace Outcome

/-- An outcome whose value, if it succeeds, is as said. -/
def Gives (Q : Value → Prop) : Outcome → Prop
  | success v _ _ => Q v
  | failure .. => True

end Outcome

namespace Answer

variable {α β : Type}

/-- An answer whose value, if it has one, is as said. -/
def Yields (Q : α → Prop) (x : Answer α) : Prop := ∀ a, x = .value a → Q a

theorem Yields.done {Q : α → Prop} {a : α} (h : Q a) : Yields Q (pure a) := by
  rintro _ ⟨⟩
  exact h

theorem Yields.raise {Q : α → Prop} {fault : Fault} : Yields Q (Abrupt.raise fault) := by
  rintro _ ⟨⟩

theorem Yields.exhaust {Q : α → Prop} : Yields Q (Abrupt.exhaust : Answer α) := by
  rintro _ ⟨⟩

theorem Yields.bind {P : α → Prop} {Q : β → Prop} {x : Answer α} {f : α → Answer β}
    (hx : Yields P x) (hf : ∀ a, P a → Yields Q (f a)) : Yields Q (x >>= f) := by
  intro b hb
  cases x with
  | value a => exact hf a (hx a rfl) b hb
  | raised fault => cases hb
  | exhausted => cases hb

variable {Q : Value → Prop} {step : Parser → Int → Answer Outcome}

/-- The parts of a sequence that are left out do not matter to its value. -/
theorem yields_sequence (parts : List (Parser × Bool)) (h : ∀ x ∈ parts, x.2 = true)
    (values : List Value) (cut : Bool) (i : Int) :
    Yields (Outcome.Gives (· = pack values.reverse))
      (Parsing.sequence step parts values cut i) := by
  induction parts generalizing cut i with
  | nil => exact .done rfl
  | cons x rest ih =>
    obtain ⟨p,unit⟩ := x
    obtain rfl : unit = true := h (p,unit) (by simp)
    refine .bind (P := fun _ => True) (fun _ _ => trivial) fun o _ => ?_
    cases o with
    | success v j c => exact ih (fun y hy => h y (by simp [hy])) _ _
    | failure j cause c => exact .done trivial

theorem yields_choice (whole : Parser) (i : Int) (branches : List Parser)
    (h : ∀ p ∈ branches, Yields (Outcome.Gives Q) (step p i)) :
    Yields (Outcome.Gives Q) (Parsing.choice step whole i branches) := by
  induction branches with
  | nil => exact .done trivial
  | cons p ps ih =>
    refine .bind (h p (by simp)) fun o ho => ?_
    cases o with
    | success v j c => exact .done ho
    | failure j cause c =>
      cases c with
      | true => exact .done trivial
      | false => exact ih fun q hq => h q (by simp [hq])

theorem yields_rounds {element separator : Int → Answer Outcome}
    (h : ∀ i, Yields (Outcome.Gives Q) (element i)) (least : Nat) (most : Option Nat) (fuel : Nat)
    (t : Tally) (ht : ∀ v ∈ t.values, Q v) :
    Yields (fun t' => ∀ v ∈ t'.values, Q v)
      (Parsing.rounds element separator least most fuel t) := by
  induction fuel generalizing t with
  | zero =>
    unfold Parsing.rounds
    split
    · exact .done ht
    · exact .exhaust
  | succ fuel ih =>
    unfold Parsing.rounds
    split
    · exact .done ht
    · refine .bind (P := fun _ => True) (fun _ _ => trivial) fun o _ => ?_
      cases o with
      | failure j cause c => exact .done ht
      | success v start c =>
        refine .bind (h start) fun o ho => ?_
        cases o with
        | failure j cause d => exact .done ht
        | success v j d =>
          have hv : ∀ u ∈ v :: t.values, Q u := List.forall_mem_cons.mpr ⟨ho,ht⟩
          dsimp only
          split
          · exact .done hv
          · exact ih _ hv

/-- A repetition gives a list of what its elements give; what stands between them is left out. -/
theorem yields_repetition {element separator : Int → Answer Outcome}
    (h : ∀ i, Yields (Outcome.Gives Q) (element i)) (least : Nat) (most : Option Nat)
    (whole : Parser) (t : Text) (i : Int) :
    Yields (Outcome.Gives fun v => ∃ vs, v = .list vs ∧ ∀ u ∈ vs, Q u)
      (Parsing.repetition element separator least most whole t i) := by
  refine .bind (yields_rounds h least most _ _ (by simp)) fun tally ht => ?_
  split
  · exact .done trivial
  · exact .done ⟨_,rfl,by simpa using ht⟩

end Answer

namespace Grammar

open Answer

variable {G : Grammar} {w : World} {refusals : RuleId → Nat}

/-- What a unit parser means holds no data. -/
theorem eval_hollow (t : Text) (n : Nat) {p : Parser} (hu : G.isUnit p = true) (i : Int) :
    Yields (Outcome.Gives Value.Hollow) (G.eval t n p i) := by
  induction n generalizing p i with
  | zero => exact .exhaust
  | succ n ih =>
    rw [eval,Parsing.node.eq_def]
    cases p with
    | terminal id s =>
      dsimp only
      rcases s.scan t i with fault | _ | j
      · exact .raise
      · exact .done trivial
      · exact .done .none
    | seq id parts =>
      rw [isUnit_seq] at hu
      have hall : ∀ x ∈ parts.zip (parts.map G.isUnit), x.2 = true := by
        intro x hx
        obtain ⟨p,hp,hx⟩ := List.mem_map.mp (List.of_mem_zip hx).2
        exact hx ▸ List.all_eq_true.mp hu p hp
      intro o ho
      have hv := yields_sequence _ hall [] false i o ho
      cases o with
      | success v j c => exact (show v = .none from hv) ▸ .none
      | failure j cause c => trivial
    | choice branches =>
      rw [isUnit_choice] at hu
      exact yields_choice _ i branches fun p hp => ih (List.all_eq_true.mp hu p hp) i
    | rep id element least most separator =>
      rw [isUnit_rep] at hu
      intro o ho
      have hv := yields_repetition (fun i => ih hu i) _ _ _ t i o ho
      cases o with
      | success v j c =>
        obtain ⟨vs,rfl,hvs⟩ := hv
        exact .list hvs
      | failure j cause c => trivial
    | opt body =>
      rw [isUnit_opt] at hu
      refine .bind (ih hu i) fun o ho => ?_
      cases o with
      | success v j c => exact .done ho
      | failure j cause c => exact .done .none
    | not body =>
      refine .bind (P := fun _ => True) (fun _ _ => trivial) fun o _ => ?_
      cases o with
      | success v j c => exact .done trivial
      | failure j cause c => exact .done .none
    | cut body =>
      rw [isUnit_cut] at hu
      refine .bind (ih hu i) fun o ho => ?_
      cases o with
      | success v j c => exact .done ho
      | failure j cause c => exact .done trivial
    | filter id body test name =>
      rw [isUnit_filter] at hu
      refine .bind (ih hu i) fun o ho => ?_
      cases o with
      | failure j cause c => exact .done trivial
      | success v j c =>
        dsimp only
        rcases test v with fault | _ | _
        · exact .raise
        · exact .done trivial
        · exact .done ho
    | rule r name => exact ih (isUnit_rule r name ▸ hu) i
    | log id body name hook => exact ih (isUnit_log id body name hook ▸ hu) i
    | map | flatMap | capture => simp [isUnit_eq,Parser.makesValue] at hu

/-- A parser that answers to be a unit parser, after any uses of its grammar, succeeds only with
values that hold no data, after any uses: nothing but nothing and lists stands in them. -/
theorem hollow_of_unit (hw : G.Supplied w refusals) {p : Parser} (hp : G.Has p) {xs ys : List Use}
    (hx : ∀ x ∈ xs, G.Has x.parser) (hy : ∀ y ∈ ys, G.Has y.parser) {limit limit' : Nat}
    {s s' : State} (hs : s.memory = {}) (hs' : s'.memory = {})
    (hu : (Rules.isUnit w limit p (xs.foldl (Use.perform w) s)).1 = .value true) {t : Text}
    {i : Int} {hook : Option HookId} {config : Option Config} {v : Value} {j : Int} {cut : Bool}
    (ho : (Parsing.parse w limit' p t i hook config (ys.foldl (Use.perform w) s')).1 =
      .value (.success v j cut)) :
    v.Hollow ∧ ∀ u : Value, u.Within v → u = .none ∨ ∃ us, u = .list us := by
  have hunit : G.isUnit p = true :=
    (isUnit_of_answer hw hp (performAll_settled hw hx (hs ▸ settled_new G _)) hu).symm
  have hm : G.Settled refusals (ys.foldl (Use.perform w) s').memory :=
    performAll_settled hw hy (hs' ▸ settled_new G _)
  generalize ys.foldl (Use.perform w) s' = s'' at ho hm
  have ha := run_attains (c := ⟨t,hook.or s''.ambientHook,config.or s''.ambientConfig⟩) hw limit' hp i
    (s''.setDepth 0) hm
  have hv : v.Hollow := eval_hollow t limit' hunit i _ (ha.2 _ ho)
  refine ⟨hv,fun u huv => ?_⟩
  cases hv.within huv with
  | none => exact .inl rfl
  | list => exact .inr ⟨_,rfl⟩

/-- Brackets in one another and one after another: a rule that repeats itself. -/
def nest : Grammar where
  rules := [.named "nest"]
  body _ := .rep (.named "nest body") (.seq (.named "brackets") [.word (.named "open") "[".toList,
    .rule (.named "nest") "nest".toList,.word (.named "close") "]".toList]) 0 none
    (.terminal (.named "nothing") .pass)
  parts _ := some [.word (.named "open") "[".toList,.rule (.named "nest") "nest".toList,
    .word (.named "close") "]".toList]
  closed _ _ := by
    refine .rep (.seq rfl ?_) .terminal
    simp only [List.mem_cons,List.not_mem_nil,or_false,forall_eq_or_imp,forall_eq]
    exact ⟨.terminal,.rule (by simp),.terminal⟩

theorem hollow_nest :
    let w : World := ⟨fun r _ => .ok (nest.body r),fun _ => .recording none,fun _ => 0⟩
    let p : Parser := .rule (.named "nest") "nest".toList
    let v : Value := .list [.none,.none]
    (Rules.isUnit w 9 p {}).1 = .value true ∧
      (Parsing.parse w 99 p "[[]][]".toList 0 none none {}).1 = .value (.success v 6 false) ∧
      v.Hollow ∧ ∀ u : Value, u.Within v → u = .none ∨ ∃ us, u = .list us := by
  intro w p v
  have hw : nest.Supplied w fun _ => 0 := fun _ _ => ⟨by simp,rfl⟩
  have hu : (Rules.isUnit w 9 p (([] : List Use).foldl (Use.perform w) {})).1 = .value true := rfl
  have ho : (Parsing.parse w 99 p "[[]][]".toList 0 none none
      (([] : List Use).foldl (Use.perform w) {})).1 = .value (.success v 6 false) := rfl
  exact ⟨hu,ho,hollow_of_unit hw (.rule (by simp [nest])) (by simp) (by simp) rfl rfl hu ho⟩

end Grammar
end Peg
