import Peg.Proofs.Mirrors

/-! Two parsers whose values need not agree.
Parsers are run side by side over the same text.  Outcomes agree when position and cut are the same;
values only count where they are asked for.  Main statement: nodes agree when what lies below them
does, if the values that a node looks at are asked for. -/
namespace Peg

/-- What follows for related members follows all along two lists. -/
theorem forall₂_imp_mem {α β : Type} {R S : α → β → Prop} {xs : List α} {ys : List β}
    (h : List.Forall₂ R xs ys) (hRS : ∀ x ∈ xs, ∀ y ∈ ys, R x y → S x y) : List.Forall₂ S xs ys := by
  induction h with
  | nil => exact .nil
  | cons hxy _ ih =>
    refine .cons (hRS _ (by simp) _ (by simp) hxy) (ih fun x hx y hy => ?_)
    exact hRS x (by simp [hx]) y (by simp [hy])

/-- Outcomes at the same position and with the same cut: successes, with the same value where it
is asked for, or failures with related causes. -/
inductive Outcome.Agree (same : Prop) (C : Parser → Parser → Prop) : Outcome → Outcome → Prop
  | success {v v' : Value} {j : Int} {cut : Bool} :
    (same → v = v') → Agree same C (.success v j cut) (.success v' j cut)
  | failure {j : Int} {cause cause' : Parser} {cut : Bool} :
    C cause cause' → Agree same C (.failure j cause cut) (.failure j cause' cut)

theorem Outcome.Agree.afterCut {same : Prop} {C : Parser → Parser → Prop} {o o' : Outcome}
    (h : o.Agree same C o') (seen : Bool) : (o.afterCut seen).Agree same C (o'.afterCut seen) := by
  cases h with
  | success hv => exact .success hv
  | failure hc => exact .failure hc

/-- Fewer values may be asked for. -/
theorem Outcome.Agree.imp {same same' : Prop} {C : Parser → Parser → Prop} {o o' : Outcome}
    (h : o.Agree same C o') (hs : same' → same) : o.Agree same' C o' := by
  cases h with
  | success hv => exact .success fun h => hv (hs h)
  | failure hc => exact .failure hc

/-- Tallies that differ at most in values that are not asked for. -/
inductive Tally.Agree (same : Prop) : Tally → Tally → Prop
  | mk {values values' : List Value} {count : Nat} {cut : Bool} {stop : Int} :
    (same → values = values') → Agree same ⟨values,count,cut,stop⟩ ⟨values',count,cut,stop⟩

/-- Nodes of one kind over parsers that are related, where the values of those below are asked for
as far as the node looks at them or hands them on.  Nothing is said about names: that rules and logs
have the same ones is left to what surrounds them. -/
inductive Parser.Resembles (S : Prop → Parser → Parser → Prop) (same : Prop) :
    Parser → Parser → Prop
  | terminal {id id' : Ident} {s s' : Terminal} :
    (∀ t i, s.scan t i = s'.scan t i) → Resembles S same (.terminal id s) (.terminal id' s')
  | seq {id id' : Ident} {ps qs : List Parser} :
    List.Forall₂ (S same) ps qs → Resembles S same (.seq id ps) (.seq id' qs)
  | choice {ps qs : List Parser} :
    List.Forall₂ (S same) ps qs → Resembles S same (.choice ps) (.choice qs)
  | rep {id id' : Ident} {p q p' q' : Parser} {least : Quantity} {most : Option Quantity} :
    S same p p' → S False q q' → Resembles S same (.rep id p least most q) (.rep id' p' least most q')
  | opt {p q : Parser} : S same p q → Resembles S same (.opt p) (.opt q)
  | not {p q : Parser} : S False p q → Resembles S same (.not p) (.not q)
  | cut {p q : Parser} : S same p q → Resembles S same (.cut p) (.cut q)
  | map {asked : Prop} {id id' : Ident} {p q : Parser} {f g : Value → Except Fault Value}
    {name name' : Text} : S asked p q →
      (∀ v v', (asked → v = v') → Results (fun u u' => same → u = u') (f v) (g v')) →
        Resembles S same (.map id p f name) (.map id' q g name')
  | flatMap {id id' : Ident} {p q : Parser} {next next' : Value → Except Fault Parser}
    {name name' : Text} : S True p q → (∀ v, Results (S same) (next v) (next' v)) →
      Resembles S same (.flatMap id p next name) (.flatMap id' q next' name')
  | filter {id id' : Ident} {p q : Parser} {test : Value → Except Fault Bool} {name name' : Text} :
    S True p q → Resembles S same (.filter id p test name) (.filter id' q test name')
  | capture {p q : Parser} : S False p q → Resembles S same (.capture p) (.capture q)
  | rule {r r' : RuleId} {name name' : Text} : Resembles S same (.rule r name) (.rule r' name')
  | log {id id' : Ident} {p q : Parser} {name name' : Text} {hook hook' : Option HookId} :
    S same p q → Resembles S same (.log id p name hook) (.log id' q name' hook')

namespace Parsing.Lockstep

variable {m m' : Type → Type} [Monad m] [Abrupt m] [Monad m'] [Abrupt m']
  {R : (α β : Type) → (α → β → Prop) → m α → m' β → Prop} {C : Parser → Parser → Prop}
  {S : Prop → Parser → Parser → Prop} {step : Parser → Int → m Outcome}
  {step' : Parser → Int → m' Outcome} {same : Prop}

/-- Composing where a failure is handed on as a failure. -/
theorem bind_agree (hR : Lockstep R) {asked : Prop} {x : m Outcome} {y : m' Outcome}
    {f : Outcome → m Outcome} {g : Outcome → m' Outcome} (hx : R _ _ (Outcome.Agree asked C) x y)
    (hfailure : ∀ j cause cut, f (.failure j cause cut) = pure (.failure j cause cut) ∧
      g (.failure j cause cut) = pure (.failure j cause cut))
    (hsuccess : ∀ v v' j cut, (asked → v = v') →
      R _ _ (Outcome.Agree same C) (f (.success v j cut)) (g (.success v' j cut))) :
    R _ _ (Outcome.Agree same C) (x >>= f) (y >>= g) := by
  refine hR.bind hx fun o o' ho => ?_
  cases ho with
  | success hv => exact hsuccess _ _ _ _ hv
  | failure hc =>
    rw [(hfailure _ _ _).1,(hfailure _ _ _).2]
    exact hR.done (.failure hc)

theorem sequence_agree (hR : Lockstep R) {ps qs : List Parser} (h : List.Forall₂ (S same) ps qs)
    (hstep : ∀ asked x y, S asked x y → ∀ j, R _ _ (Outcome.Agree asked C) (step x j) (step' y j))
    (units : List Bool) {values values' : List Value} (hvalues : same → values = values')
    (cut : Bool) (i : Int) :
    R _ _ (Outcome.Agree same C) (Parsing.sequence step (ps.zip units) values cut i)
      (Parsing.sequence step' (qs.zip units) values' cut i) := by
  have hdone (values values' : List Value) (hvalues : same → values = values') (cut : Bool) (i : Int) :
      R _ _ (Outcome.Agree same C) (pure (.success (pack values.reverse) i cut))
        (pure (.success (pack values'.reverse) i cut)) :=
    hR.done (.success fun h => by rw [hvalues h])
  induction h generalizing units values values' cut i with
  | nil => exact hdone _ _ hvalues cut i
  | cons hxy _ ih =>
    cases units with
    | nil => exact hdone _ _ hvalues cut i
    | cons unit units =>
      refine hR.bind (hstep _ _ _ hxy i) fun o o' ho => ?_
      cases ho with
      | @success v v' j c hv =>
        refine ih units (fun h => ?_) _ _
        rw [hv h,hvalues h]
      | failure hc => exact hR.done (.failure hc)

theorem choice_agree (hR : Lockstep R) {ps qs : List Parser} (h : List.Forall₂ (S same) ps qs)
    (hstep : ∀ asked x y, S asked x y → ∀ j, R _ _ (Outcome.Agree asked C) (step x j) (step' y j))
    {whole whole' : Parser} (hwhole : C whole whole') (i : Int) :
    R _ _ (Outcome.Agree same C) (Parsing.choice step whole i ps)
      (Parsing.choice step' whole' i qs) := by
  induction h with
  | nil => exact hR.done (.failure hwhole)
  | cons hxy _ ih =>
    refine hR.bind (hstep _ _ _ hxy i) fun o o' ho => ?_
    cases ho with
    | success hv => exact hR.done (.success hv)
    | @failure _ _ _ cut hc =>
      cases cut with
      | true => exact hR.done (.failure hwhole)
      | false => exact ih

variable {element separator : Int → m Outcome} {element' separator' : Int → m' Outcome}

theorem gap_agree (hR : Lockstep R)
    (hs : ∀ j, R _ _ (Outcome.Agree False C) (separator j) (separator' j)) {t t' : Tally}
    (ht : t.Agree same t') :
    R _ _ (Outcome.Agree False C) (Parsing.gap separator t) (Parsing.gap separator' t') := by
  obtain @⟨values,values',count,cut,stop,hvalues⟩ := ht
  unfold Parsing.gap
  by_cases hcount : count = 0
  · rw [if_pos hcount,if_pos hcount]
    exact hR.done (.success fun _ => rfl)
  · rw [if_neg hcount,if_neg hcount]
    exact hs stop

/-- Rounds end together, since nothing that ends them looks at a value. -/
theorem rounds_agree (hR : Lockstep R)
    (he : ∀ j, R _ _ (Outcome.Agree same C) (element j) (element' j))
    (hs : ∀ j, R _ _ (Outcome.Agree False C) (separator j) (separator' j)) (least : Nat)
    (most : Option Nat) (fuel : Nat) {t t' : Tally} (ht : t.Agree same t') :
    R _ _ (Tally.Agree same) (Parsing.rounds element separator least most fuel t)
      (Parsing.rounds element' separator' least most fuel t') := by
  induction fuel generalizing t t' with
  | zero =>
    obtain @⟨values,values',count,cut,stop,hvalues⟩ := ht
    unfold Parsing.rounds
    by_cases hm : most.any (· ≤ count) = true
    · rw [if_pos hm,if_pos hm]
      exact hR.done ⟨hvalues⟩
    · rw [if_neg hm,if_neg hm]
      exact hR.exhaust
  | succ fuel ih =>
    have hgap := hR.gap_agree hs ht
    obtain @⟨values,values',count,cut,stop,hvalues⟩ := ht
    unfold Parsing.rounds
    by_cases hm : most.any (· ≤ count) = true
    · rw [if_pos hm,if_pos hm]
      exact hR.done ⟨hvalues⟩
    · rw [if_neg hm,if_neg hm]
      refine hR.bind hgap fun o o' ho => ?_
      cases ho with
      | failure => exact hR.done ⟨hvalues⟩
      | @success _ _ start =>
        refine hR.bind (he start) fun o o' ho => ?_
        cases ho with
        | failure => exact hR.done ⟨hvalues⟩
        | @success v v' j d hv =>
          have hnext : same → v :: values = v' :: values' := fun h => by rw [hv h,hvalues h]
          dsimp only
          by_cases hstay : j = stop ∧ least ≤ count + 1
          · rw [if_pos hstay,if_pos hstay]
            exact hR.done ⟨hnext⟩
          · rw [if_neg hstay,if_neg hstay]
            exact ih ⟨hnext⟩

theorem repetition_agree (hR : Lockstep R)
    (he : ∀ j, R _ _ (Outcome.Agree same C) (element j) (element' j))
    (hs : ∀ j, R _ _ (Outcome.Agree False C) (separator j) (separator' j)) (least : Nat)
    (most : Option Nat) {whole whole' : Parser} (hwhole : C whole whole') (t : Text) (i : Int) :
    R _ _ (Outcome.Agree same C) (Parsing.repetition element separator least most whole t i)
      (Parsing.repetition element' separator' least most whole' t i) := by
  refine hR.bind (hR.rounds_agree he hs least most _ ⟨fun _ => rfl⟩) fun tally tally' ht => ?_
  obtain @⟨values,values',count,cut,stop,hvalues⟩ := ht
  by_cases hcount : count < least
  · rw [if_pos hcount,if_pos hcount]
    exact hR.done (.failure hwhole)
  · rw [if_neg hcount,if_neg hcount]
    exact hR.done (.success fun h => by rw [hvalues h])

/-- Nodes that resemble each other agree when what is related below them does. -/
theorem node_agree (hR : Lockstep R) {t : Text} {e : Surroundings m} {e' : Surroundings m'}
    {p q : Parser} (h : p.Resembles S same q) (hpq : C p q) (i : Int)
    (hstep : ∀ asked x y, S asked x y → ∀ j, R _ _ (Outcome.Agree asked C) (step x j) (step' y j))
    (hs : ∀ id id' ps qs, p = .seq id ps → q = .seq id' qs →
      R _ _ (· = ·) (e.shape id ps) (e'.shape id' qs))
    (hr : ∀ r name r' name', p = .rule r name → q = .rule r' name' → R _ _ (Outcome.Agree same C)
      (e.rule r name i fun x => step x i) (e'.rule r' name' i fun y => step' y i))
    (hl : ∀ id x name hook id' y name' hook', p = .log id x name hook → q = .log id' y name' hook' →
      R _ _ (Outcome.Agree same C) (e.log hook name i (step x i)) (e'.log hook' name' i (step' y i))) :
    R _ _ (Outcome.Agree same C) (Parsing.node e t step p i) (Parsing.node e' t step' q i) := by
  cases h with
  | @terminal id id' s s' hscan =>
    simp only [Parsing.node]
    rw [hscan]
    rcases s'.scan t i with fault | _ | j
    · exact hR.raise fault
    · exact hR.done (.failure hpq)
    · exact hR.done (.success fun _ => rfl)
  | seq h => exact hR.same (hs _ _ _ _ rfl rfl) fun units =>
      hR.sequence_agree h hstep units (fun _ => rfl) _ i
  | choice h => exact hR.choice_agree h hstep hpq i
  | rep hp hq => exact hR.repetition_agree (hstep _ _ _ hp) (hstep _ _ _ hq) _ _ hpq t i
  | opt h =>
    refine hR.bind (hstep _ _ _ h i) fun o o' ho => ?_
    cases ho with
    | success hv => exact hR.done (.success hv)
    | failure => exact hR.done (.success fun _ => rfl)
  | not h =>
    refine hR.bind (hstep _ _ _ h i) fun o o' ho => ?_
    cases ho with
    | success => exact hR.done (.failure hpq)
    | failure => exact hR.done (.success fun _ => rfl)
  | cut h =>
    refine hR.bind_agree (hstep _ _ _ h i) (fun _ _ _ => ⟨rfl,rfl⟩) fun v v' j cut hv => ?_
    exact hR.done (.success hv)
  | @map asked id id' x y f g name name' h hf =>
    refine hR.bind_agree (hstep _ _ _ h i) (fun _ _ _ => ⟨rfl,rfl⟩) fun v v' j cut hv => ?_
    have hfg := hf v v' hv
    dsimp only
    generalize f v = a at hfg ⊢
    generalize g v' = b at hfg ⊢
    cases hfg with
    | ok hu => exact hR.done (.success hu)
    | error fault => exact hR.raise fault
  | @flatMap id id' x y next next' name name' h hn =>
    refine hR.bind_agree (hstep _ _ _ h i) (fun _ _ _ => ⟨rfl,rfl⟩) fun v v' j cut hv => ?_
    obtain rfl := hv trivial
    have hnext := hn v
    dsimp only
    generalize next v = a at hnext ⊢
    generalize next' v = b at hnext ⊢
    cases hnext with
    | ok hxy => exact hR.bind (hstep _ _ _ hxy j) fun o o' ho => hR.done (ho.afterCut cut)
    | error fault => exact hR.raise fault
  | @filter id id' x y test name name' h =>
    refine hR.bind_agree (hstep _ _ _ h i) (fun _ _ _ => ⟨rfl,rfl⟩) fun v v' j cut hv => ?_
    obtain rfl := hv trivial
    dsimp only
    rcases test v with fault | _ | _
    · exact hR.raise fault
    · exact hR.done (.failure hpq)
    · exact hR.done (.success fun _ => rfl)
  | capture h =>
    refine hR.bind_agree (hstep _ _ _ h i) (fun _ _ _ => ⟨rfl,rfl⟩) fun v v' j cut _ => ?_
    exact hR.done (.success fun _ => rfl)
  | rule => exact hr _ _ _ _ rfl rfl
  | log h => exact hl _ _ _ _ _ _ _ _ rfl rfl

end Parsing.Lockstep
end Peg
