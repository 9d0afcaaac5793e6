import Peg.Proofs.Deepening
import Peg.Proofs.Equality
import Peg.Proofs.Grouping
import Peg.Proofs.Mappings

/-! Choices in brackets.
Operands are bracketed into choices of choices.  A choice tries its alternatives through all choices
inside it: the first success wins, and a cut of any of them stops all.  Main statement: however the
operands are bracketed, the same alternatives are run with the same end. -/
namespace Peg

namespace Parser

mutual
/-- The branches of a choice that are no choices, through all choices inside it. -/
def alternatives : Parser → List Parser
  | choice ps => alternativesAll ps
  | p => [p]

def alternativesAll : List Parser → List Parser
  | [] => []
  | p :: ps => alternatives p ++ alternativesAll ps
end

@[simp] theorem alternatives_choice (ps : List Parser) :
    (choice ps).alternatives = alternativesAll ps := by
  rw [alternatives]

@[simp] theorem alternativesAll_nil : alternativesAll [] = [] := by rw [alternativesAll]

@[simp] theorem alternativesAll_cons (p : Parser) (ps : List Parser) :
    alternativesAll (p :: ps) = p.alternatives ++ alternativesAll ps := by
  rw [alternativesAll]

@[simp] theorem alternativesAll_append (ps qs : List Parser) :
    alternativesAll (ps ++ qs) = alternativesAll ps ++ alternativesAll qs := by
  induction ps with
  | nil => rfl
  | cons p ps ih => simp [ih]

@[simp] theorem alternativesAll_branches (p : Parser) :
    alternativesAll p.branches = p.alternatives := by
  rcases p.branches_cases with hp | hp
  · simp [hp]
  · conv_rhs => rw [hp]
    simp

@[simp] theorem alternatives_orElse (p q : Parser) :
    (p.orElse q).alternatives = p.alternatives ++ q.alternatives := by
  simp [orElse_eq]

/-- However operands are bracketed, their alternatives are those of the choice. -/
theorem alternatives_toChoice (B : Bracketing) :
    B.toChoice.alternatives = alternativesAll B.operands := by
  refine Bracketing.fold_eq (R := fun (p : Parser) ps => p.alternatives = alternativesAll ps)
    ?_ ?_ ?_ B
  · exact fun p => by simp
  · intro id ps qss h
    rw [alternatives_choice]
    induction h with
    | nil => rfl
    | cons hp _ ih => simp [hp,ih]
  · intro id p q ps qs hp hq
    simp [hp,hq]

/-- No alternative is a choice. -/
theorem isChoice_of_mem_alternatives (p : Parser) : ∀ q ∈ p.alternatives, q.isChoice = false := by
  refine alternatives.induct (fun p => ∀ q ∈ p.alternatives, q.isChoice = false)
    (fun ps => ∀ q ∈ alternativesAll ps, q.isChoice = false) ?_ ?_ ?_ ?_ p
  · intro ps ih
    rwa [alternatives_choice]
  · intro p h
    rw [alternatives]
    · cases p with
      | choice ps => exact absurd rfl (h ps)
      | _ => exact List.forall_mem_singleton.mpr rfl
    · exact h
  · exact List.forall_mem_nil _
  · intro p ps ihp ihps
    rw [alternativesAll_cons]
    exact List.forall_mem_append.mpr ⟨ihp,ihps⟩

end Parser

namespace Execution

mutual
/-- The executions of the alternatives that were run for a choice, through all choices inside it. -/
def trials : Execution → List Execution
  | mk (.choice _) _ _ inner => trialsAll inner
  | x => [x]

def trialsAll : List Execution → List Execution
  | [] => []
  | x :: xs => trials x ++ trialsAll xs
end

@[simp] theorem trialsAll_nil : trialsAll [] = [] := by rw [trialsAll]

@[simp] theorem trialsAll_cons (x : Execution) (xs : List Execution) :
    trialsAll (x :: xs) = x.trials ++ trialsAll xs := by
  rw [trialsAll]

@[simp] theorem trialsAll_append (xs ys : List Execution) :
    trialsAll (xs ++ ys) = trialsAll xs ++ trialsAll ys := by
  induction xs with
  | nil => rfl
  | cons x xs ih => simp [ih]

@[simp] theorem trials_choice (ps : List Parser) (i : Int) (o : Outcome) (xs : List Execution) :
    (mk (.choice ps) i o xs).trials = trialsAll xs := by
  rw [trials]

theorem trials_of_isChoice {p : Parser} (h : p.isChoice = false) (i : Int) (o : Outcome)
    (xs : List Execution) : (mk p i o xs).trials = [mk p i o xs] := by
  cases p with
  | choice ps => cases h
  | _ => rw [trials]; exact nofun

end Execution

namespace Recorded

instance : LawfulMonad Recorded := LawfulMonad.mk' Recorded
  (fun ⟨x⟩ => congrArg Recorded.mk (by simp))
  (fun a f => congrArg Recorded.mk (by simp))
  (fun ⟨x⟩ f g => congrArg Recorded.mk (by simp [List.append_assoc]))

open Execution

/-- Two recorded computations that end side by side, in the same state and with the same trials. -/
def Beside (α β : Type) (Q : α → β → Prop) (x : Recorded α) (y : Recorded β) : Prop :=
  ∀ s, Run.Ends (fun a b => Q a.1 b.1 ∧ trialsAll a.2 = trialsAll b.2) (x.run s) (y.run s)

theorem beside_lockstep : Parsing.Lockstep Beside where
  done hQ _ := .value ⟨hQ,rfl⟩
  raise _ _ := .raised
  exhaust _ := .exhausted
  bind := by
    intro α β γ δ P Q x y f g hx hf s
    refine (hx s).bind fun a b u hab _ => (hf _ _ hab.1 u).bind fun a' b' u' hab' _ => ?_
    exact .value ⟨hab'.1,by rw [trialsAll_append,trialsAll_append,hab.2,hab'.2]⟩

theorem beside_of_ends {α : Type} {x y : Recorded α}
    (h : ∀ s, Run.Ends (· = ·) (x.run s) (y.run s)) : Beside α α (· = ·) x y := fun s =>
  (h s).imp fun _ _ hab => ⟨congrArg Prod.fst hab,by rw [hab]⟩

theorem beside_self {α : Type} (x : Recorded α) : Beside α α (· = ·) x x :=
  beside_of_ends fun s => .self (x.run s)

theorem Beside.trans {α β γ : Type} {P : α → β → Prop} {Q : β → γ → Prop} {R : α → γ → Prop}
    {x : Recorded α} {y : Recorded β} {z : Recorded γ} (h : Beside α β P x y)
    (h' : Beside β γ Q y z) (hR : ∀ a b c, P a b → Q b c → R a c) : Beside α γ R x z := fun s =>
  (h s).trans (h' s) fun _ _ _ hab hbc => ⟨hR _ _ _ hab.1 hbc.1,hab.2.trans hbc.2⟩

/-- That a choice was run is no trial of its own. -/
theorem beside_note (ps : List Parser) (i : Int) (x : Recorded Outcome) :
    Beside _ _ (· = ·) (note (.choice ps) i x) x := by
  intro s
  have hnote := (Run.Ends.self (x.run s)).map
    (f := fun a : Outcome × List Execution => (a.1,[Execution.mk (.choice ps) i a.1 a.2])) (g := id)
    (Q := fun a b => a.1 = b.1 ∧ trialsAll a.2 = trialsAll b.2) fun a b hab => by simp [hab]
  rwa [id_map] at hnote

/-- A computation is run beside itself with something made of its value. -/
theorem beside_pure {α β : Type} (x : Recorded α) (f : α → β) :
    Beside β α (fun b a => b = f a) (x >>= fun a => pure (f a)) x := by
  have hpure := beside_lockstep.same (Q := fun b a => b = f a) (beside_self x)
    fun a => beside_lockstep.done (a := f a) (b := a) rfl
  rwa [bind_pure] at hpure

end Recorded

/-- What comes of trying parsers in order: one of them won, or none did, and whether that was cut
short. -/
inductive Trial
  | won (value : Value) (index : Int)
  | lost (cut : Bool)

/-- The outcome of a choice for what came of trying its branches. -/
def Trial.outcome (whole : Parser) (i : Int) : Trial → Outcome
  | won v j => .success v j false
  | lost cut => .failure i whole cut

theorem Trial.endsAlike (p q : Parser) (i : Int) (x : Trial) :
    Grammar.EndsAlike (x.outcome p i) (x.outcome q i) := by
  cases x with
  | won v j => exact .success fun _ => rfl
  | lost cut => exact .failure trivial

/-- A choice that succeeds has no cut, and one that fails does so where it began. -/
theorem Trial.outcome_ends (p : Parser) (i : Int) (x : Trial) :
    ((x.outcome p i).isSuccess = true → (x.outcome p i).hasCut = false) ∧
      ((x.outcome p i).isSuccess = false → (x.outcome p i).index = i) := by
  cases x with
  | won v j => exact ⟨fun _ => rfl,nofun⟩
  | lost cut => exact ⟨nofun,fun _ => rfl⟩

namespace Parsing

section Tries

variable {m : Type → Type} [Monad m]

/-- Goes on with other parsers where none has won and no cut was seen. -/
def elseTry (rest : m Trial) : Trial → m Trial
  | .won v j => pure (.won v j)
  | .lost true => pure (.lost true)
  | .lost false => rest

/-- Tries parsers in order from one position. -/
def tries (step : Parser → Int → m Outcome) (i : Int) : List Parser → m Trial
  | [] => pure (.lost false)
  | p :: ps => do
    match ← step p i with
    | .success v j _ => pure (.won v j)
    | .failure _ _ cut => elseTry (tries step i ps) (.lost cut)

variable [LawfulMonad m] {step : Parser → Int → m Outcome} {i : Int}

/-- A choice tries its branches, and says what came of it. -/
theorem choice_eq_tries (whole : Parser) (ps : List Parser) :
    choice step whole i ps = tries step i ps >>= fun x => pure (x.outcome whole i) := by
  induction ps with
  | nil => simp [choice,tries,Trial.outcome]
  | cons p ps ih =>
    rw [choice,tries,bind_assoc]
    refine congrArg (step p i >>= ·) (funext fun o => ?_)
    cases o with
    | success v j cut => simp [Trial.outcome]
    | failure j cause cut =>
      cases cut with
      | true => simp [elseTry,Trial.outcome]
      | false => simp [elseTry,ih]

theorem tries_append (ps qs : List Parser) :
    tries step i (ps ++ qs) = tries step i ps >>= elseTry (tries step i qs) := by
  induction ps with
  | nil => simp [tries,elseTry]
  | cons p ps ih =>
    rw [List.cons_append,tries,tries,bind_assoc]
    refine congrArg (step p i >>= ·) (funext fun o => ?_)
    cases o with
    | success v j cut => simp [elseTry]
    | failure j cause cut =>
      cases cut with
      | true => simp [elseTry]
      | false => simp [elseTry,ih]

end Tries

open Recorded Execution

variable (w : World) (c : Context) (i : Int)

/-- A choice is run beside the tries of its branches. -/
theorem recorded_beside_tries (ps : List Parser) :
    Beside _ _ (fun o x => o = x.outcome (.choice ps) i) (recorded w c (.choice ps) i)
      (tries (recorded w c) i ps) := by
  have hbranches : Beside _ _ (· = ·) (recorded w c (.choice ps) i)
      (choice (recorded w c) (.choice ps) i ps) :=
    (beside_of_ends (recorded_choice w c ps i)).trans (beside_note ps i _)
      fun _ _ _ hab hbc => hab.trans hbc
  rw [choice_eq_tries] at hbranches
  exact hbranches.trans (beside_pure _ _) fun _ _ _ hab hbc => hab.trans hbc

/-- A choice among the parsers that are tried may be replaced by its branches. -/
theorem tries_choice (ps : List Parser) :
    Beside _ _ (· = ·) (tries (recorded w c) i [.choice ps]) (tries (recorded w c) i ps) := by
  have htries := beside_lockstep.bind (Q := fun x y : Trial => x = y)
    (f := fun
      | .success v j _ => pure (.won v j)
      | .failure _ _ cut => elseTry (tries (recorded w c) i []) (.lost cut))
    (g := pure) (recorded_beside_tries w c i ps) fun o x hox => ?_
  · rwa [bind_pure] at htries
  · subst hox
    match x with
    | .won v j => exact beside_self _
    | .lost true => exact beside_self _
    | .lost false => exact beside_self _

/-- Parsers are tried beside their alternatives. -/
theorem tries_alternativesAll (ps : List Parser) :
    Beside _ _ (· = ·) (tries (recorded w c) i ps)
      (tries (recorded w c) i (Parser.alternativesAll ps)) := by
  refine Parser.alternativesAll.induct
    (fun p => Beside _ _ (· = ·) (tries (recorded w c) i [p])
      (tries (recorded w c) i p.alternatives))
    (fun ps => Beside _ _ (· = ·) (tries (recorded w c) i ps)
      (tries (recorded w c) i (Parser.alternativesAll ps))) ?_ ?_ ?_ ?_ ps
  · intro ps ih
    rw [Parser.alternatives_choice]
    exact (tries_choice w c i ps).trans ih fun _ _ _ hab hbc => hab.trans hbc
  · intro p h
    rw [Parser.alternatives]
    · exact beside_self _
    · exact h
  · exact beside_self _
  · intro p ps ihp ihps
    rw [Parser.alternativesAll_cons,tries_append,← List.singleton_append,tries_append]
    refine beside_lockstep.same ihp fun x => ?_
    match x with
    | .won v j => exact beside_self _
    | .lost true => exact beside_self _
    | .lost false => exact ihps

/-- With every limit that is large enough, a choice is run beside the tries of its alternatives. -/
theorem record_beside_alternatives {p : Parser} (hp : p.isChoice = true) (s : State) :
    ∃ deep, ∀ limit ≥ deep,
      Run.Ends (fun a b => a.1 = b.1.outcome p i ∧ trialsAll a.2 = trialsAll b.2)
        ((record w c limit p i).run s) ((tries (recorded w c) i p.alternatives).run s) := by
  cases p with
  | choice ps =>
    have hchoice := (recorded_beside_tries w c i ps).trans (tries_alternativesAll w c i ps)
      fun _ _ _ hab hbc => hbc ▸ hab
    obtain ⟨deep,hdeep⟩ := record_settlesTo w c (.choice ps) i s
    refine ⟨deep,fun limit hl => ?_⟩
    rw [Parser.alternatives_choice]
    exact (hdeep limit hl).trans (hchoice s) fun _ _ _ hab hbc => hab ▸ hbc
  | _ => cases hp

/-- A parser that is run notes itself. -/
theorem ensures_recorded (p : Parser) :
    Ensures (recorded w c p i) fun o xs => ∃ ys, xs = [.mk p i o ys] := by
  intro s o xs u h
  obtain ⟨deep,hdeep⟩ := record_settlesTo w c p i s
  have hends : Run.Ends (· = ·) ((record w c (deep + 1) p i).run s) ((recorded w c p i).run s) :=
    hdeep (deep + 1) (by omega)
  have hnoted : Ensures (record w c (deep + 1) p i) fun o xs => ∃ ys, xs = [.mk p i o ys] := by
    refine (Ensures.note (Q := fun _ _ => True) fun _ _ _ _ _ => trivial).imp ?_
    rintro o _ ⟨xs,rfl,-⟩
    exact ⟨xs,rfl⟩
  rw [h] at hends
  generalize hr : (record w c (deep + 1) p i).run s = r at hends
  cases hends with
  | value hab => exact hnoted s o xs u (hab ▸ hr)

/-- Alternatives are tried from the first one on, all from one position. -/
theorem ensures_tries {ps : List Parser} (h : ∀ p ∈ ps, p.isChoice = false) :
    Ensures (tries (recorded w c) i ps) fun _ xs =>
      (trialsAll xs).map parser <+: ps ∧ ∀ x ∈ trialsAll xs, x.start = i := by
  induction ps with
  | nil => exact .done ⟨List.prefix_refl _,List.forall_mem_nil _⟩
  | cons p ps ih =>
    refine (ensures_recorded w c i p).bind ?_
    rintro o _ ⟨ys,rfl⟩
    have hone : trialsAll [mk p i o ys] = [mk p i o ys] := by
      simp [trials_of_isChoice (h p (by simp))]
    have hlast : (trialsAll ([mk p i o ys] ++ [])).map parser <+: p :: ps ∧
        ∀ x ∈ trialsAll ([mk p i o ys] ++ []), x.start = i := by
      rw [List.append_nil,hone]
      exact ⟨⟨ps,rfl⟩,List.forall_mem_singleton.mpr rfl⟩
    cases o with
    | success v j cut => exact .done hlast
    | failure j cause cut =>
      cases cut with
      | true => exact .done hlast
      | false =>
        refine (ih fun q hq => h q (by simp [hq])).imp fun _ xs hxs => ?_
        rw [trialsAll_append,hone]
        exact ⟨List.cons_prefix_cons.mpr ⟨rfl,hxs.1⟩,List.forall_mem_cons.mpr ⟨rfl,hxs.2⟩⟩

/-- What a parse does is what its recorded run does, without what that notes. -/
theorem parse_eq_record (limit : Nat) (p : Parser) (t : Text) (i : Int) (hook : Option HookId)
    (config : Option Config) (s : State) :
    let r := (record w ⟨t,hook.or s.ambientHook,config.or s.ambientConfig⟩ limit p i).run
      (s.setDepth 0)
    parse w limit p t i hook config s = (r.1.map Prod.fst,r.2) := by
  intro r
  have hrun : run w ⟨t,hook.or s.ambientHook,config.or s.ambientConfig⟩ limit p i (s.setDepth 0) =
      (r.1.map Prod.fst,r.2) := by
    rw [← forget_record]
    exact Run.map_apply Prod.fst _ (s.setDepth 0)
  exact hrun

/-- However parsers are bracketed into choices, a parse runs the same alternatives in the same
order, from the first one on, and ends alike: with the same success and no cut, or with a failure
where it began and the same cut. -/
theorem brackets_keep_choices {B B' : Bracketing} (h : B.operands = B'.operands)
    (hB : B.toChoice.isChoice = true) (hB' : B'.toChoice.isChoice = true) (t : Text) (i : Int)
    (hook : Option HookId) (config : Option Config) (s : State) :
    ∃ deep, ∀ limit ≥ deep,
      let x := parse w limit B.toChoice t i hook config s
      let y := parse w limit B'.toChoice t i hook config s
      let xs := executions w limit B.toChoice t i hook config s
      let ys := executions w limit B'.toChoice t i hook config s
      Run.Ends Grammar.EndsAlike x y ∧ xs.map trialsAll = ys.map trialsAll ∧
        ∀ o, x.1 = .value o → (o.isSuccess = true → o.hasCut = false) ∧
          (o.isSuccess = false → o.index = i) ∧
          ∃ zs, xs = .value zs ∧ (trialsAll zs).map parser <+: Parser.alternativesAll B.operands ∧
            ∀ z ∈ trialsAll zs, z.start = i := by
  let c : Context := ⟨t,hook.or s.ambientHook,config.or s.ambientConfig⟩
  obtain ⟨deep,hdeep⟩ := record_beside_alternatives w c i hB (s.setDepth 0)
  obtain ⟨deep',hdeep'⟩ := record_beside_alternatives w c i hB' (s.setDepth 0)
  refine ⟨max deep deep',fun limit hl => ?_⟩
  -- both ways of brackets end beside the tries of the same alternatives
  have hends := hdeep limit (by omega)
  have hends' := hdeep' limit (by omega)
  have hensures := ensures_tries w c i B.toChoice.isChoice_of_mem_alternatives (s.setDepth 0)
  rw [Parser.alternatives_toChoice] at hends hends' hensures
  rw [← h] at hends'
  rw [parse_eq_record,parse_eq_record,executions,executions]
  dsimp only
  generalize (record w c limit B.toChoice i).run (s.setDepth 0) = r at hends ⊢
  generalize (record w c limit B'.toChoice i).run (s.setDepth 0) = r' at hends' ⊢
  generalize (tries (recorded w c) i (Parser.alternativesAll B.operands)).run (s.setDepth 0) = r''
    at hends hends' hensures
  cases hends with
  | raised =>
    cases hends'
    refine ⟨.raised,rfl,fun o ho => ?_⟩
    cases ho
  | exhausted =>
    cases hends'
    refine ⟨.exhausted,rfl,fun o ho => ?_⟩
    cases ho
  | @value a b u hab =>
    cases hends' with
    | @value a' _ _ hab' =>
      obtain ⟨hfirst,hstart⟩ := hensures b.1 b.2 u rfl
      refine ⟨.value ?_,?_,?_⟩
      · rw [hab.1,hab'.1]
        exact b.1.endsAlike _ _ i
      · exact congrArg Answer.value (hab.2.trans hab'.2.symm)
      · rintro o ho
        cases ho
        obtain ⟨hcut,hindex⟩ := b.1.outcome_ends B.toChoice i
        rw [← hab.1] at hcut hindex
        rw [← hab.2] at hfirst hstart
        exact ⟨hcut,hindex,a.2,rfl,hfirst,hstart⟩

/-- A letter, or two of which the first commits to the second, or that one alone: joined one after
another, or the last two together.  Where the second letter is missing, the last of the three is not
tried in either way of brackets. -/
theorem brackets_keep_committed_choice :
    let w : World := ⟨fun _ _ => .error .notAParser,fun _ => .recording none,fun _ => 0⟩
    let a : Parser := .word (.named "a") ['a']
    let bc : Parser := .seq (.named "bc") [.cut (.word (.named "b") ['b']),.word (.named "c") ['c']]
    let b : Parser := .word (.named "b alone") ['b']
    let joined : Bracketing :=
      .join (.named "abc") (.join (.named "ab") (.one a) (.one bc)) (.one b)
    let grouped : Bracketing :=
      .group (.named "a or more") [.one a,.group (.named "more") [.one bc,.one b]]
    (parse w 9 joined.toChoice "bd".toList 0 none none {}).1 =
        .value (.failure 0 joined.toChoice true) ∧
      joined.operands = grouped.operands ∧ joined.toChoice.isChoice = true ∧
      grouped.toChoice.isChoice = true ∧
      ∃ deep, ∀ limit ≥ deep,
        Run.Ends Grammar.EndsAlike (parse w limit joined.toChoice "bd".toList 0 none none {})
          (parse w limit grouped.toChoice "bd".toList 0 none none {}) := by
  intro w a bc b joined grouped
  have hoperands : joined.operands = grouped.operands := rfl
  obtain ⟨deep,hdeep⟩ := brackets_keep_choices w hoperands rfl rfl "bd".toList 0 none none {}
  exact ⟨rfl,hoperands,rfl,rfl,deep,fun limit hl => (hdeep limit hl).1⟩

end Parsing
end Peg
